import LittleScheme.Proofs.Reading

/-!
# What the reader returns can be read

Every atom token has the spelling of an atom, and the reader makes symbols of atoms only, so all it
returns is readable. The reader of one datum and the reader of all data agree.
-/
namespace LittleScheme

namespace Token

/-- An atom has the spelling of an atom. -/
def Spelled : Token → Prop
  | .atom text => IsAtom text.toList
  | _ => True

theorem atomRest_plain (cs : List Char) : ∀ x ∈ (atomRest cs).1, endsAtom x = false := by
  intro x hx
  have := List.all_takeWhile (p := fun c => !endsAtom c) (l := cs)
  rw [List.all_eq_true] at this
  simpa using this x hx

theorem scanHash_spelled {cs rest : List Char} {t : Token} (h : scanHash cs = some (t, rest)) :
    t.Spelled := by
  unfold scanHash at h
  split at h
  case h_7 =>
      split at h
      · simp at h
      · simp only [Option.some.injEq, Prod.mk.injEq] at h
        rw [← h.1]
        trivial
  case h_8 => simp at h
  all_goals
    simp only [Option.some.injEq, Prod.mk.injEq] at h
    rw [← h.1]
    trivial

theorem scan_spelled {cs rest : List Char} {t : Token} (h : scan cs = some (t, rest)) :
    t.Spelled := by
  unfold scan at h
  split at h
  case h_1 => simp at h
  case h_5 =>
      obtain ⟨_, _, he⟩ := Option.map_eq_some_iff.1 h
      rw [← (Prod.mk.inj he).1]
      trivial
  case h_6 => exact scanHash_spelled h
  case h_7 cs' =>
      have hplain := atomRest_plain cs'
      split at h
      · rw [← (Prod.mk.inj (Option.some.inj h)).1]
        trivial
      · rename_i word after hword he
        rw [he] at hplain
        rw [← (Prod.mk.inj (Option.some.inj h)).1, Spelled, String.toList_ofList]
        exact ⟨'.', word, rfl, hplain, .inr ⟨rfl, fun hnil => hword hnil⟩⟩
  case h_8 c cs' _ _ _ _ _ _ =>
      split at h
      · rename_i hc
        rw [← (Prod.mk.inj (Option.some.inj h)).1, Spelled, String.toList_ofList]
        exact ⟨c, _, rfl, atomRest_plain cs', .inl hc⟩
      · simp at h
  all_goals
    rw [← (Prod.mk.inj (Option.some.inj h)).1]
    trivial

/-- Every token of a text is spelled as it should be. -/
theorem splitWithin_spelled {n : Nat} {cs : List Char} {ts : List Token}
    (h : splitWithin n cs = .ok ts) : ∀ t ∈ ts, t.Spelled := by
  fun_induction splitWithin n cs generalizing ts with
  | case1 | case2 =>
      simp only [Except.ok.injEq] at h
      simp [← h]
  | case3 _ _ _ _ ih => exact ih h
  | case4 _ _ _ ih => exact ih h
  | case5 n c cs _ _ t rest hscan ts' _ ih =>
      simp only [Except.ok.injEq] at h
      rw [← h]
      exact List.forall_mem_cons.2 ⟨scan_spelled hscan, ih ‹_›⟩
  | case6 | case7 | case8 => simp at h

end Token

namespace Reader

theorem atom_readable {text : String} (h : Token.IsAtom text.toList) : (atom text).Readable := by
  unfold atom
  split
  · simp [Datum.Readable]
  · rename_i hnum
    split
    · simp [Datum.Readable]
    · rename_i hkey
      exact ⟨h, by simp [hnum], hkey⟩

theorem listWithTail_readable {items : List Datum} {tail : Datum}
    (h : Datum.AllReadable items) (ht : tail.Readable) :
    (Datum.listWithTail items tail).Readable := by
  induction items with
  | nil => exact ht
  | cons d items ih => exact ⟨h.1, ih h.2⟩

/-- The data collected in an open construct are readable. -/
def Open.Readable : Open → Prop
  | .list items | .vector items | .bytes items => Datum.AllReadable items
  | .dotted items tail => Datum.AllReadable items ∧ ∀ d ∈ tail, d.Readable
  | .quote => True

/-- The data collected so far are readable. -/
def Progress.Readable : Progress → Prop
  | .datum d => d.Readable
  | .within stack => ∀ o ∈ stack, o.Readable

theorem deliver_readable {d : Datum} {stack : List Open} (hd : d.Readable)
    (hs : ∀ o ∈ stack, o.Readable) : (deliver d stack).Readable := by
  induction stack generalizing d with
  | nil => exact hd
  | cons o stack ih =>
      obtain ⟨ho, hrest⟩ := List.forall_mem_cons.1 hs
      cases o with
      | list items => exact List.forall_mem_cons.2 ⟨⟨hd, ho⟩, hrest⟩
      | dotted items tail => exact List.forall_mem_cons.2 ⟨⟨ho.1, by simpa using hd⟩, hrest⟩
      | vector items => exact List.forall_mem_cons.2 ⟨⟨hd, ho⟩, hrest⟩
      | bytes items => exact List.forall_mem_cons.2 ⟨⟨hd, ho⟩, hrest⟩
      | quote =>
          refine ih ?_ hrest
          have hitems : Datum.AllReadable [.keyword .quote, d] := ⟨trivial, hd, trivial⟩
          exact listWithTail_readable hitems trivial

theorem allReadable_reverse {items : List Datum} (h : Datum.AllReadable items) :
    Datum.AllReadable items.reverse := by
  rw [Datum.allReadable_iff] at h ⊢
  exact fun d hd => h d (List.mem_reverse.1 hd)

theorem close_readable {stack : List Open} {p : Progress} (hs : ∀ o ∈ stack, o.Readable)
    (h : close stack = .ok p) : p.Readable := by
  unfold close at h
  split at h
  · obtain ⟨ho, hs⟩ := List.forall_mem_cons.1 hs
    rw [← Except.ok.inj h]
    exact deliver_readable (listWithTail_readable (allReadable_reverse ho) trivial) hs
  · obtain ⟨ho, hs⟩ := List.forall_mem_cons.1 hs
    rw [← Except.ok.inj h]
    exact deliver_readable (listWithTail_readable (allReadable_reverse ho.1) (ho.2 _ rfl)) hs
  · obtain ⟨ho, hs⟩ := List.forall_mem_cons.1 hs
    rw [← Except.ok.inj h]
    exact deliver_readable (d := .vector _) (allReadable_reverse ho) hs
  · rename_i items stack
    have hrest := (List.forall_mem_cons.1 hs).2
    cases hb : List.mapM byte items.reverse with
    | error e => simp [hb, Except.map] at h
    | ok bytes =>
        simp only [hb, Except.map, Except.ok.injEq] at h
        rw [← h]
        exact deliver_readable (d := .bytes bytes) trivial hrest
  · simp at h

theorem point_readable {stack : List Open} {p : Progress} (hs : ∀ o ∈ stack, o.Readable)
    (h : point stack = .ok p) : p.Readable := by
  unfold point at h
  split at h
  · simp at h
  · obtain ⟨ho, hs⟩ := List.forall_mem_cons.1 hs
    rw [← Except.ok.inj h]
    exact List.forall_mem_cons.2 ⟨⟨ho, by simp⟩, hs⟩
  · simp at h

theorem character_readable {name : String} {d : Datum} (h : character name = .ok d) :
    d.Readable := by
  unfold character at h
  split at h
  · rw [← Except.ok.inj h]
    trivial
  · dsimp only at h
    split at h
    · rw [← Except.ok.inj h]
      trivial
    · simp at h

theorem other_readable {stack : List Open} {t : Token} {p : Progress}
    (hs : ∀ o ∈ stack, o.Readable) (ht : t.Spelled) (h : other stack t = .ok p) : p.Readable := by
  cases t with
  | leftParen | vectorOpen | bytesOpen | quote =>
      rw [← Except.ok.inj h]
      exact List.forall_mem_cons.2 ⟨trivial, hs⟩
  | rightParen => exact close_readable hs h
  | dot => exact point_readable hs h
  | yes | no =>
      rw [← Except.ok.inj h]
      exact deliver_readable trivial hs
  | character name =>
      rw [other] at h
      cases hc : character name with
      | error e => simp [hc, Except.map] at h
      | ok d =>
          simp only [hc, Except.map, Except.ok.injEq] at h
          rw [← h]
          exact deliver_readable (character_readable hc) hs
  | string body =>
      rw [other] at h
      cases hc : unescape body.toList with
      | error e => simp [hc, Except.map] at h
      | ok cs =>
          simp only [hc, Except.map, Except.ok.injEq] at h
          rw [← h]
          exact deliver_readable trivial hs
  | atom text =>
      rw [← Except.ok.inj h]
      exact deliver_readable (atom_readable ht) hs

theorem step_readable {stack : List Open} {t : Token} {p : Progress}
    (hs : ∀ o ∈ stack, o.Readable) (ht : t.Spelled) (h : step stack t = .ok p) : p.Readable := by
  unfold step at h
  split at h
  · exact close_readable hs h
  · simp at h
  · exact other_readable hs ht h

/-- What is read from tokens of the right spelling is readable. -/
theorem readDatum_readable {stack : List Open} {ts rest : List Token} {d : Datum}
    (hs : ∀ o ∈ stack, o.Readable) (hts : ∀ t ∈ ts, t.Spelled)
    (h : readDatum stack ts = .ok (d, rest)) : d.Readable := by
  induction ts generalizing stack with
  | nil => simp [readDatum] at h
  | cons t ts ih =>
      obtain ⟨ht, hts⟩ := List.forall_mem_cons.1 hts
      rw [readDatum] at h
      cases hstep : step stack t with
      | error e => simp [hstep] at h
      | ok p =>
          have hp := step_readable hs ht hstep
          cases p with
          | datum d' =>
              simp only [hstep, Except.ok.injEq, Prod.mk.injEq] at h
              exact h.1 ▸ hp
          | within stack' =>
              simp only [hstep] at h
              exact ih hp hts h

theorem readAll_readable {stack : List Open} {ts : List Token} {ds : List Datum}
    (hs : ∀ o ∈ stack, o.Readable) (hts : ∀ t ∈ ts, t.Spelled) (h : readAll stack ts = .ok ds) :
    ∀ d ∈ ds, d.Readable := by
  induction ts generalizing stack ds with
  | nil =>
      rw [readAll] at h
      split at h
      · rw [← Except.ok.inj h]
        simp
      · simp at h
  | cons t ts ih =>
      obtain ⟨ht, hts⟩ := List.forall_mem_cons.1 hts
      rw [readAll] at h
      cases hstep : step stack t with
      | error e => simp [hstep] at h
      | ok p =>
          have hp := step_readable hs ht hstep
          cases p with
          | datum d =>
              cases hrest : readAll [] ts with
              | error e => simp [hstep, hrest, Except.map] at h
              | ok ds' =>
                  simp only [hstep, hrest, Except.map, Except.ok.injEq] at h
                  rw [← h]
                  exact List.forall_mem_cons.2 ⟨hp, ih (by simp) hts hrest⟩
          | within stack' =>
              simp only [hstep] at h
              exact ih hp hts h

theorem parseAll_readable {text : String} {ds : List Datum} (h : parseAll text = .ok ds) :
    ∀ d ∈ ds, d.Readable := by
  unfold parseAll at h
  cases hsplit : Token.split text with
  | error e => simp [hsplit, bind, Except.bind] at h
  | ok ts =>
      simp only [hsplit, bind, Except.bind] at h
      exact readAll_readable (by simp) (Token.splitWithin_spelled hsplit) h

theorem parse_readable {text : String} {d : Datum} (h : parse text = .ok d) : d.Readable := by
  unfold parse at h
  cases hsplit : Token.split text with
  | error e => simp [hsplit, bind, Except.bind] at h
  | ok ts =>
      cases hread : readDatum [] ts with
      | error e => simp [hsplit, hread, bind, Except.bind] at h
      | ok found =>
          obtain ⟨d', rest⟩ := found
          have hd := readDatum_readable (by simp) (Token.splitWithin_spelled hsplit) hread
          cases rest with
          | nil =>
              simp only [hsplit, hread, bind, Except.bind, pure, Except.pure, Except.ok.injEq] at h
              exact h ▸ hd
          | cons => simp [hsplit, hread, bind, Except.bind, throw, throwThe, MonadExceptOf.throw] at h

/-- Reading all data takes one datum after the other. -/
theorem readAll_eq_ok_cons {stack : List Open} {ts : List Token} {d : Datum} {ds : List Datum}
    (h : readAll stack ts = .ok (d :: ds)) :
    ∃ rest, readDatum stack ts = .ok (d, rest) ∧ readAll [] rest = .ok ds := by
  induction ts generalizing stack with
  | nil =>
      rw [readAll] at h
      split at h <;> simp at h
  | cons t ts ih =>
      rw [readAll] at h
      cases hstep : step stack t with
      | error e => simp [hstep] at h
      | ok p =>
          cases p with
          | datum d' =>
              cases hrest : readAll [] ts with
              | error e => simp [hstep, hrest, Except.map] at h
              | ok ds' =>
                  simp only [hstep, hrest, Except.map, Except.ok.injEq, List.cons.injEq] at h
                  exact ⟨ts, by simp [readDatum, hstep, h.1], by rw [hrest, h.2]⟩
          | within stack' =>
              simp only [hstep] at h
              obtain ⟨rest, hread, hall⟩ := ih h
              exact ⟨rest, by simp [readDatum, hstep, hread], hall⟩

theorem deliver_ne_nil (d : Datum) (stack : List Open) : deliver d stack ≠ .within [] := by
  induction stack generalizing d with
  | nil => simp [deliver]
  | cons o stack ih => cases o <;> simp [deliver, ih]

/-- While the reader goes on, something is open. -/
theorem step_ne_nil (stack : List Open) (t : Token) : step stack t ≠ .ok (.within []) := by
  have hclose : close stack ≠ .ok (.within []) := by
    unfold close
    split <;> simp only [ne_eq, Except.ok.injEq, deliver_ne_nil, not_false_eq_true, reduceCtorEq]
    rename_i items _
    cases List.mapM byte items.reverse <;> simp [Except.map, deliver_ne_nil]
  unfold step
  split
  · exact hclose
  · simp
  · cases t with
    | rightParen => exact hclose
    | dot => simp only [other, point]; split <;> simp
    | character name =>
        rw [other]
        cases character name <;> simp [Except.map, deliver_ne_nil]
    | string body =>
        rw [other]
        cases unescape body.toList <;> simp [Except.map, deliver_ne_nil]
    | _ => simp [other, deliver_ne_nil]

theorem readAll_eq_ok_nil {stack : List Open} {ts : List Token} (h : readAll stack ts = .ok []) :
    stack = [] ∧ ts = [] := by
  induction ts generalizing stack with
  | nil =>
      rw [readAll] at h
      split at h
      · rename_i hempty
        simpa using hempty
      · simp at h
  | cons t ts ih =>
      rw [readAll] at h
      cases hstep : step stack t with
      | error e => simp [hstep] at h
      | ok p =>
          cases p with
          | datum d' => cases hrest : readAll [] ts <;> simp [hstep, hrest, Except.map] at h
          | within stack' =>
              simp only [hstep] at h
              rw [(ih h).1] at hstep
              exact absurd hstep (step_ne_nil stack t)

theorem parse_eq_of_parseAll {text : String} {d : Datum} (h : parseAll text = .ok [d]) :
    parse text = .ok d := by
  unfold parseAll at h
  cases hsplit : Token.split text with
  | error e => simp [hsplit, bind, Except.bind] at h
  | ok ts =>
      simp only [hsplit, bind, Except.bind] at h
      obtain ⟨rest, hread, hall⟩ := readAll_eq_ok_cons h
      rw [(readAll_eq_ok_nil hall).2] at hread
      simp [parse, hsplit, hread, bind, Except.bind, pure, Except.pure]

end Reader
end LittleScheme

import LittleScheme.Proofs.StayingFrames

/-!
# Steps that stay in their realm

A step of a frame changes the pairs of its copy and what is within reach. While its operands run the
frame is as it was, but for the pairs that receive their values; so it is ready again when they have
arrived.
-/
namespace LittleScheme

namespace Realm

variable {W C : Ref → Prop} {w w' : Realm} {s s' : Store} {v : Value} {f : Frame} {r : Ref}
  {cs : List Ref} {n : Nat}

/-! ### Waiting for values -/

/-- What belongs to a frame is as it was, but for the pairs that have received values. -/
theorem Own.arrived (hown : w.Own s v r cs) (hw : w.Holds s) (h : w.Becomes W s w' s')
    (harrives : ∀ c ∈ r :: cs, W c → w'.Apart c ∧ w'.Shared (s'.car c) ∧ s'.cdr c = s.cdr c)
    (hquotes : w'.Quotes s' r) : w'.Own s' v r cs := by
  have hpair : ∀ c ∈ r :: cs, ¬ W c → s'.pair c = s.pair c :=
    fun c hc => h.pair (hown.list.2 c hc) (hown.apart c hc).1
  refine ⟨hown.list.congr (fun c hc => ?_) (h.count .pair), fun c hc => ?_, fun c hc => ?_, hquotes⟩
  · by_cases hW : W c
    · exact (harrives c hc hW).2.2
    · exact Store.cdr_eq_of_pair_eq (hpair c hc hW)
  · by_cases hW : W c
    · exact (harrives c hc hW).1
    · exact h.apart (hown.list.2 c hc) (hown.apart c hc) hW
  · by_cases hW : W c
    · exact .inl (harrives c hc hW).2.1
    · rw [Store.car_eq_of_pair_eq (hpair c hc hW)]
      exact h.expr hw (hown.exprs c hc)

/-- The form that a frame works on: a list of its own, in pairs among `C`, or one within reach. -/
inductive Works (w : Realm) (s : Store) (C : Ref → Prop) (f : Frame) (r : Ref) (cells : List Ref) : Prop
  | shared (hexpr : f.expr = .pair r) (hr : w.shared .pair r r)
      (hcells : ∀ c ∈ cells, w.shared .pair c c) : Works w s C f r cells
  | own (h : w.Own s f.expr r cells) (hC : ∀ c ∈ r :: cells, C c) : Works w s C f r cells

theorem Works.expr (h : w.Works s C f r cs) (hw : w.Holds s) : ∀ c ∈ cs, w.Expr s (s.car c) := by
  intro c hc
  cases h with
  | shared _ _ hcells => exact .inl (hw.similar.car (hcells c hc))
  | own hown _ => exact hown.exprs c (List.mem_cons_of_mem _ hc)

/-- The frame waits for the value of an operand. It is ready again when the value has arrived. -/
theorem Works.await_stays (h : w.Works s C f r cs) (hw : w.Holds s)
    (hscope : w.shared .scope f.scope f.scope) (hhead : s.car r ≠ .keyword .quote)
    (hn : n ≤ s.pairs.size) {c : Ref} (hc : c ∈ cs)
    (harrived : ∀ w' : Realm, ∀ s' : Store, w'.Shared (s'.car c) → w'.Arrived s' (s.car r) cs) :
    Stays W w s (Frame.await f (s.car c) c) (Leads n C f) := by
  have hexpr := h.expr hw c hc
  cases h with
  | shared hf hr hcells =>
      have hshared : w.Shared f.expr := hf ▸ .pair hr
      exact Realm.await_stays hw hscope hexpr hn (hw.similar.bound (hcells c hc)).1 (by simp)
        (.shared hshared) (.inl ⟨hcells c hc, rfl⟩) fun w' s' hbecomes _ =>
          .shared (hbecomes.shared hshared)
  | own hown hC =>
      have hlt : ∀ q ∈ r :: cs, q < s.pairs.size := hown.list.2
      refine Realm.await_stays hw hscope hexpr hn (hlt c (List.mem_cons_of_mem _ hc))
        (fun q hq => ⟨.inl (hC q hq), hlt q hq⟩) (.own hown.list (fun _ hq => hq) hown.apart)
        (.inr ⟨hown.apart c (List.mem_cons_of_mem _ hc), .inl (hC c (List.mem_cons_of_mem _ hc))⟩)
        fun w' s' hbecomes harrives => ?_
      have hne : r ≠ c := by
        rintro rfl
        exact (List.nodup_cons.1 hown.list.1.nodup).1 hc
      have hcell : ∀ q ∈ r :: cs, s.pairs.size ≤ q ∨ q = c → q = c := by
        rintro q hq (hle | heq)
        · exact absurd (hlt q hq) (Nat.not_lt.2 hle)
        · exact heq
      have hsame : s'.pair r = s.pair r := hbecomes.pair (hlt r (by simp))
        (hown.apart r (by simp)).1 fun hr => hne (hcell r (by simp) hr)
      have hvalue := harrives (hbecomes.not_shared (k := .pair)
        (hlt c (List.mem_cons_of_mem _ hc)) (hown.apart c (List.mem_cons_of_mem _ hc)).1)
      have hcar : s'.car r = s.car r := Store.car_eq_of_pair_eq hsame
      refine .own (hown.arrived hw hbecomes (fun q hq hW => ?_) fun hquote => ?_) fun _ => ?_
      · obtain rfl := hcell q hq hW
        exact hvalue
      · exact absurd (hcar.symm.trans hquote) hhead
      · rw [hcar]
        exact harrived w' s' hvalue.2.1

/-- The first operand is dropped from the form. -/
theorem Works.drop {c : Ref} (h : w.Works s C f r (c :: cs)) (hw : w.Holds s)
    (hhead : s.car r ≠ .keyword .quote) :
    w.Becomes C s w (s.setCdr r (s.cdr c)) ∧ w.Works (s.setCdr r (s.cdr c)) C f r cs := by
  cases h with
  | shared hexpr hr hcells =>
      exact ⟨hw.setCdr hr (hw.similar.cdr (hcells c (by simp))),
        .shared hexpr hr fun q hq => hcells q (List.mem_cons_of_mem _ hq)⟩
  | own hown hC =>
      have hbecomes := hw.dropFrom (hown.apart r (by simp)) (s.cdr c)
      have hmem : ∀ q ∈ r :: cs, q ∈ r :: c :: cs := fun q hq => by
        rcases List.mem_cons.1 hq with rfl | hq <;> simp [*]
      have hnodup := hown.list.1.nodup
      have hlist : (s.setCdr r (s.cdr c)).ListAt f.expr (r :: cs) := by
        refine ⟨⟨hown.list.1.1, ?_⟩, fun q hq => by simpa using hown.list.2 q (hmem q hq)⟩
        rw [Store.cdr_setCdr (hown.list.2 r (by simp))]
        refine hown.list.tail.tail.1.congr fun q hq => Store.cdr_setCdr_ne ?_ _
        rintro rfl
        exact (List.nodup_cons.1 hnodup).1 (List.mem_cons_of_mem _ hq)
      refine ⟨hbecomes.mono fun q hq => hq ▸ hC r (by simp), .own ⟨hlist, fun q hq =>
        hown.apart q (hmem q hq), fun q hq => ?_, fun hquote => ?_⟩ fun q hq => hC q (hmem q hq)⟩
      · rw [Store.car_setCdr]
        exact hbecomes.expr hw (hown.exprs q (hmem q hq))
      · rw [Store.car_setCdr] at hquote
        exact absurd hquote hhead

/-! ### Forms that are done in one step -/

/-- A list that the frame will not use any more may be taken as text. -/
theorem Works.stays {α : Type} {x : Eval α} {Q : Realm → α → Store → Prop} (h : w.Works s C f r cs)
    (hw : w.Holds s) (hlist : s.ListAt f.expr (r :: cs))
    (hx : ∀ w', w.Becomes C s w' s → w'.Spine s (.pair r) (r :: cs) → w'.Quotes s r →
      Stays C w' s x Q) : Stays C w s x Q := by
  have hexpr : f.expr = .pair r := hlist.1.1
  rw [hexpr] at hlist
  cases h with
  | shared _ hr hcells =>
      exact hx w hw.refl ⟨hlist, .inr (List.forall_mem_cons.2 ⟨hr, hcells⟩)⟩
        (hw.quotes (.inl (.pair hr)))
  | own hown hC =>
      have hbecomes : w.Becomes C s (w.withText (r :: cs)) s :=
        (hw.addText hlist (fun c hc => (hown.apart c hc).1) hown.exprs).mono hC
      exact (hx _ hbecomes ⟨hlist, .inl fun c hc => .inr hc⟩ hown.quotes).go_on rfl hbecomes fun _ => .inl

theorem value_stays {x : Eval Value} (hx : Stays W w s x fun w' v _ => w'.Shared v) :
    Stays W w s (do return .value (← x)) (Leads n C f) :=
  hx.bind fun _ _ _ hbecomes hv => .pure hbecomes.holds hv

theorem Holds.elements_ne_nil (hw : w.Holds s) {body : Value} (hpair : body.isPair = true)
    (hbody : w.Code body) : s.elements body ≠ [] := by
  cases body with
  | pair q =>
      have hlt := hw.cell_lt hbody.cell
      rw [Store.elements, Store.cells]
      cases hsize : s.pairs.size with
      | zero => lia
      | succ k => simp [Store.cellsWithin]
  | _ => cases hpair

theorem ofBody_stays (hw : w.Holds s) {body : Value} {scope : Ref} (hpair : body.isPair = true)
    (hbody : w.Code body) (hscope : w.shared .scope scope scope) (hn : n ≤ s.pairs.size) :
    Stays W w s (do return .replace (← Frame.ofBody body scope f.destination)) (Leads n C f) := by
  have hne := hw.elements_ne_nil hpair hbody
  have hqueue := hw.copyAll (hw.elements_expr hbody) hscope f.destination
  have hkept := hw.keeps (W := W) (keeps_copyAll s (s.elements body))
  refine .of_ok (Eval.run_bind_ok (Frame.run_ofBody body scope f.destination s)) hkept ⟨?_, ?_, ?_⟩
  · rw [Ne, List.map_eq_nil_iff, ← List.length_eq_zero_iff, Store.length_copyAll,
      List.length_eq_zero_iff]
    exact hne
  · exact hqueue.of_le hn
  · intro g hg
    obtain ⟨x, -, rfl⟩ := List.mem_map.1 hg
    rfl

theorem letApplication_stays (h : w.Works s C f r cs) (hw : w.Holds s)
    (hlist : s.ListAt f.expr (r :: cs)) (hscope : w.shared .scope f.scope f.scope)
    (hn : n ≤ s.pairs.size) :
    Stays C w s (do
      return .suspend { f with expr := ← Form.letApplication (s.cdr r) f.scope, pushed := false } [])
      (Leads n C f) := by
  refine h.stays hw hlist fun w' hbecomes hspine _ => ?_
  rcases Form.run_letApplication_cases (W := C) hbecomes.holds hspine.tail (hbecomes.gains.le hscope)
    with ⟨e, he⟩ | ⟨w₁, s₁, p, vs, hbecomes₁, hp, hprocedure, hvs, hrun⟩
  · exact .of_error hbecomes.holds (Eval.run_bind_error he)
  have hexprs : ∀ x ∈ p :: vs, w₁.Expr s₁ x := List.forall_mem_cons.2 ⟨.inl hp, hvs⟩
  have hquote : p = .keyword .quote → ∀ q, vs.head? = some q → w₁.Shared q := by
    rintro rfl
    cases hprocedure
  obtain ⟨hkept, hown⟩ := hbecomes₁.holds.ownList (W := C) hexprs hquote
  have hle : s.pairs.size ≤ s₁.pairs.size := hbecomes₁.count .pair
  have hle' : s₁.pairs.size ≤ (s₁.list (p :: vs)).2.pairs.size := hkept.count .pair
  refine .of_ok (Eval.run_bind_ok hrun) (hbecomes₁.trans hkept fun _ => .inl) ⟨_, _, .again hkept.holds
    (.own hown) (fun c hc => ⟨?_, hown.list.2 c hc⟩) (by lia) (by simp) rfl rfl rfl⟩
  have hnew := (Store.mem_newCells (k := vs.length + 1).1 hc).1
  lia

/-- A procedure is called when its operator and operands are values. -/
theorem stepCall_stays (hw : w.Holds s) (hlist : s.ListAt (.pair r) (r :: cs))
    (hshared : ∀ c ∈ r :: cs, w.Shared (s.car c)) (hn : n ≤ s.pairs.size) :
    Stays W w s (Frame.stepCall f r) (Leads n C f) := by
  have hargs : ∀ v ∈ s.elements (s.cdr r), w.Shared v := by
    intro v hv
    rw [hlist.tail.elements_eq] at hv
    obtain ⟨c, hc, rfl⟩ := List.mem_map.1 hv
    exact hshared c (List.mem_cons_of_mem _ hc)
  have hhead := hshared r (by simp)
  rw [Frame.stepCall]
  refine .ask_bind (.ask_bind ?_)
  cases hcar : s.car r with
  | native p =>
      refine (Native.call_stays hw hargs).bind fun w' reply s' hbecomes hreply => ?_
      cases reply with
      | value v => exact .pure hbecomes.holds hreply
      | call procedure args => exact .pure hbecomes.holds hreply
  | closure q =>
      rw [hcar] at hhead
      have hq : w.shared .closure q q := by
        cases hhead with
        | closure hq => exact hq
      refine (Eval.enterCall_stays hw hq hargs).bind fun w' scope s' hbecomes hscope => .ask_bind ?_
      obtain ⟨hpair, hbody⟩ := hbecomes.holds.body (hbecomes.gains.le hq)
      exact ofBody_stays hbecomes.holds hpair hbody hscope (Nat.le_trans hn (hbecomes.count .pair))
  | _ => exact .of_error hw rfl

/-! ### Forms that wait -/

theorem stepConditional_stays (h : w.Works s C f r cs) (hw : w.Holds s)
    (hlist : s.ListAt (.pair r) (r :: cs)) (hscope : w.shared .scope f.scope f.scope)
    (hhead : s.car r = .keyword .ifThen) (hn : n ≤ s.pairs.size) :
    Stays W w s (Frame.stepConditional f (s.cdr r)) (Leads n C f) := by
  rw [Frame.stepConditional]
  rcases Form.run_conditional_cases hlist.tail with ⟨e, he⟩ | ⟨a, b, more, rfl, hrun⟩
  · exact .bind_error hw he
  refine .bind_ok hrun (.ask_bind ?_)
  cases hpushed : f.pushed with
  | false =>
      refine h.await_stays hw hscope (by simp [hhead]) hn (by simp) fun w' s' _ => ?_
      rw [hhead]
      trivial
  | true =>
      simp only [Bool.not_true, Bool.false_eq_true, if_false]
      split
      · exact goOn_stays hw (h.expr hw b (by simp)) hn
      · cases more with
        | nil => exact .pure hw .void
        | cons c more => exact goOn_stays hw (h.expr hw c (by simp)) hn

theorem stepDefinition_stays (h : w.Works s C f r cs) (hw : w.Holds s)
    (hlist : s.ListAt f.expr (r :: cs)) (hscope : w.shared .scope f.scope f.scope)
    (hhead : s.car r = .keyword .define) (hn : n ≤ s.pairs.size)
    (harrived : f.pushed = true → w.Arrived s (s.car r) cs) :
    Stays C w s (Frame.stepDefinition f (s.cdr r)) (Leads n C f) := by
  have hexpr : f.expr = .pair r := hlist.1.1
  have hlist' := hlist
  rw [hexpr] at hlist'
  rw [Frame.stepDefinition]
  by_cases hvariable : ∃ a b, cs = [a, b] ∧ (s.car a).isPair = false
  · obtain ⟨a, b, rfl, hatom⟩ := hvariable
    refine .bind_congr (Form.run_definition_variable hlist'.tail hatom f.scope) ?_
    rw [bind_assoc]
    refine .bind_reads hw (Form.readOnly_bindingName _) fun name _ => .ask_bind ?_
    cases hpushed : f.pushed with
    | false =>
        refine h.await_stays hw hscope (by simp [hhead]) hn (by simp) fun w' s' hv => ?_
        rw [hhead]
        rintro _ _ ⟨⟩
        exact hv
    | true =>
        have hb := harrived hpushed
        rw [hhead] at hb
        exact value_stays (Eval.bind_stays hw hscope name (hb a b rfl))
  · refine h.stays hw hlist fun w' hbecomes hspine _ => ?_
    have hscope' := hbecomes.gains.le hscope
    refine (Form.definition_stays hbecomes.holds hspine.tail hscope').bind fun w₁ d s₁ hbecomes₁ hd => ?_
    cases d with
    | procedure name closure =>
        exact value_stays (Eval.bind_stays hbecomes₁.holds (hbecomes₁.gains.le hscope') name hd)
    | «variable» name cell =>
        obtain ⟨-, -, a, rfl, hatom⟩ := hd
        exact absurd ⟨a, cell, rfl, hatom⟩ hvariable

theorem stepAssignment_stays (h : w.Works s C f r cs) (hw : w.Holds s)
    (hlist : s.ListAt (.pair r) (r :: cs)) (hscope : w.shared .scope f.scope f.scope)
    (hhead : s.car r = .keyword .set) (hn : n ≤ s.pairs.size)
    (harrived : f.pushed = true → w.Arrived s (s.car r) cs) :
    Stays W w s (Frame.stepAssignment f (s.cdr r)) (Leads n C f) := by
  rw [Frame.stepAssignment]
  rcases Form.run_assignment_cases hlist.tail with ⟨e, he⟩ | ⟨name, a, b, rfl, hrun⟩
  · exact .bind_error hw he
  refine .bind_ok hrun (.ask_bind ?_)
  cases hpushed : f.pushed with
  | false =>
      refine h.await_stays hw hscope (by simp [hhead]) hn (by simp) fun w' s' hv => ?_
      rw [hhead]
      rintro _ _ ⟨⟩
      exact hv
  | true =>
      have hb := harrived hpushed
      rw [hhead] at hb
      exact value_stays (Eval.assign_stays hw hscope name (hb a b rfl))

theorem shared_of_lookup (hw : w.Holds s) {scope : Ref} (hscope : w.shared .scope scope scope)
    {name : String} {u : Value} (h : (Eval.lookup scope name).run s = .ok u s') : w.Shared u := by
  have hget := hw.similar.get? hscope name
  rw [Eval.run_lookup] at h
  cases hfound : s.get? scope name with
  | none =>
      rw [hfound] at h
      cases h
  | some x =>
      rw [hfound] at h hget
      cases h
      cases hget with
      | some hshared => exact hshared

/-- The value of an operand that needs no frame, or has had one, is within reach. -/
theorem shared_of_settledValue (hw : w.Holds s) {scope : Ref} (hscope : w.shared .scope scope scope)
    (hv : w.Expr s v) {arrived : Bool} (harrived : arrived = true → w.Shared v) {u : Value}
    (h : (Frame.settledValue arrived v scope).run s = .ok (some u) s') : w.Shared u := by
  rw [Frame.settledValue] at h
  split at h
  · rename_i htrue
    cases h
    exact harrived htrue
  · unfold Frame.trivialValue at h
    split at h
    · obtain ⟨x, s₁, hx, h⟩ := Eval.run_bind_eq_ok.1 h
      cases h
      exact shared_of_lookup hw hscope hx
    · rw [Eval.run_ask_bind] at h
      split at h
      · cases h
      · rename_i hneeds
        cases h
        exact hw.shared_of_settled hv (Bool.not_eq_true _ ▸ hneeds)

theorem shared_of_settledTest (hw : w.Holds s) {scope : Ref} (hscope : w.shared .scope scope scope)
    (hv : w.Expr s v) {arrived : Bool} (harrived : arrived = true → w.Shared v) {u : Value}
    (h : (Frame.settledTest arrived v scope).run s = .ok (some u) s') : w.Shared u := by
  unfold Frame.settledTest at h
  split at h
  · cases h
    exact .bool true
  · exact shared_of_settledValue hw hscope hv harrived h

/-- The operands are tried in order. -/
theorem stepLogical_stays (wanted : Bool) (h : w.Works s C f r cs) (hw : w.Holds s)
    (hscope : w.shared .scope f.scope f.scope)
    (hhead : s.car r = .keyword .and ∨ s.car r = .keyword .or) (hn : n ≤ s.pairs.size)
    {arrived : Bool} (harrived : arrived = true → ∀ a rest, cs = a :: rest → w.Shared (s.car a)) :
    Stays C w s (Frame.stepLogical f r wanted arrived cs) (Leads n C f) := by
  induction cs generalizing s arrived with
  | nil =>
      rw [Frame.stepLogical]
      exact .pure hw (.bool wanted)
  | cons c cs ih =>
      have hexpr := h.expr hw c (by simp)
      have hquote : s.car r ≠ .keyword .quote := by rcases hhead with hr | hr <;> simp [hr]
      rw [Frame.stepLogical]
      refine .ask_bind ?_
      split
      · exact goOn_stays hw hexpr hn
      · refine .bind_reads hw (Frame.checks_settledValue _ _ _).readOnly fun settled hsettled => ?_
        cases settled with
        | none =>
            refine h.await_stays hw hscope hquote hn (by simp) fun w' s' hv => ?_
            rcases hhead with hr | hr
            · rw [hr]
              rintro _ _ ⟨⟩
              exact hv
            · rw [hr]
              rintro _ _ ⟨⟩
              exact hv
        | some u =>
            have hu := shared_of_settledValue hw hscope hexpr (fun ht => harrived ht c cs rfl) hsettled
            simp only
            split
            · refine .pure hw ?_
              cases wanted with
              | true => exact .bool false
              | false => exact hu
            · obtain ⟨hbecomes, hworks⟩ := h.drop hw hquote
              refine Stays.bind (Q := fun w' _ s' => w' = w ∧ s' = s.setCdr r (s.cdr c))
                (.of_ok rfl hbecomes ⟨rfl, rfl⟩) ?_
              rintro _ _ _ - ⟨rfl, rfl⟩
              exact ih hworks hbecomes.holds (by simpa using hhead) (by simpa using hn) (by simp)

/-- A frame goes on with the body of a clause. -/
theorem sequence_stays (hw : w.Holds s) {body : Value} (hbody : w.Code body)
    (hl : s.isList body = true) (hnil : body.isNil = false) (hn : n ≤ s.pairs.size) :
    Stays W w s (do Frame.goOn f (← Form.sequence body)) (Leads n C f) := by
  cases body with
  | pair q =>
      obtain ⟨ds, hspine⟩ := hw.spine_pair hbody hl
      cases hcdr : (s.cdr q).isNil with
      | true =>
          have hq : s.cdr q = .nil := by
            cases hv : s.cdr q <;> simp [hv, Value.isNil] at hcdr ⊢
          exact .bind_ok (Form.run_sequence_single hq) (goOn_stays hw (hw.expr_car hbody.cell) hn)
      | false =>
          let s₁ := (s.cons (.keyword .begin) (.pair q)).2
          have hkeeps : s.Keeps s₁ := s.keeps_pushPair _ _
          have hkept := hw.keeps (W := W) hkeeps
          have hexprs : ∀ x ∈ .keyword .begin :: (q :: ds).map s.car, w.Expr s₁ x := by
            refine List.forall_mem_cons.2 ⟨.inl (.keyword _), fun x hx => ?_⟩
            obtain ⟨c, hc, rfl⟩ := List.mem_map.1 hx
            exact hkept.expr hw (hw.expr_car (hspine.cell hc))
          obtain ⟨hkept', hown⟩ := hkept.holds.ownList (W := W) hexprs (by simp)
          have hle : s.pairs.size ≤ s₁.pairs.size := hkeeps.count .pair
          have hrun : (do Frame.goOn f (← Form.sequence (.pair q)) : Eval Frame.Transition).run s =
              .ok (.suspend (f.withExpr (s₁.list (.keyword .begin :: (q :: ds).map s.car)).1) [])
                (s₁.list (.keyword .begin :: (q :: ds).map s.car)).2 := by
            rw [Eval.run_bind_ok (Form.run_sequence_several hcdr), Frame.run_goOn,
              Machine.copySpine_begin hspine.list]
          refine .of_ok hrun (hkept.trans hkept' fun _ => .inl) ⟨_, _, .again hkept'.holds (.own hown)
            (fun c hc => ⟨?_, hown.list.2 c hc⟩)
            (Nat.le_trans hn (Nat.le_trans hle (hkept'.count .pair))) (by simp) rfl rfl rfl⟩
          have hnew := (Store.mem_newCells (k := ((q :: ds).map s.car).length + 1).1 hc).1
          lia
  | nil => cases hnil
  | _ =>
      rw [Store.isList_eq_false (show s.Chain _ [] _ from ⟨rfl, rfl⟩) (by simp)] at hl
      cases hl

/-- When the value of its test is known, a clause is chosen or dropped. -/
theorem decided_stays (hw : w.Holds s) {u body : Value} {c : Ref} {rest : List Ref} (hu : w.Shared u)
    (hbody : w.Code body) (hl : s.isList body = true) (hn : n ≤ s.pairs.size)
    (hdrop : w.Becomes C s w (s.setCdr r (s.cdr c)))
    (hrest : Stays C w (s.setCdr r (s.cdr c)) (Frame.stepCond f r false rest) (Leads n C f)) :
    Stays C w s (do
      if u.isTrue then
        if body.isNil then return .value u else Frame.goOn f (← Form.sequence body)
      else
        Eval.update fun s => s.setCdr r (s.cdr c)
        Frame.stepCond f r false rest) (Leads n C f) := by
  split
  · split
    · exact .pure hw hu
    · rename_i hnil
      exact sequence_stays hw hbody hl (Bool.not_eq_true _ ▸ hnil) hn
  · refine Stays.bind (Q := fun w' _ s' => w' = w ∧ s' = s.setCdr r (s.cdr c))
      (.of_ok rfl hdrop ⟨rfl, rfl⟩) ?_
    rintro _ _ _ - ⟨rfl, rfl⟩
    exact hrest

/-- The test of a clause is put aside in a pair that receives its value. -/
theorem awaitTest_stays {c q : Ref} (h : w.Works s C f r (c :: cs)) (hw : w.Holds s)
    (hscope : w.shared .scope f.scope f.scope) (hhead : s.car r = .keyword .cond)
    (hn : n ≤ s.pairs.size) (hq : s.car c = .pair q) :
    Stays C w s (do
      let head ← Eval.make fun s' => (s'.nextPair, s'.pushPair (s.car q) (s.cdr q))
      Eval.update fun s => s.setCar c (.pair head)
      Frame.await f (s.car q) head) (Leads n C f) := by
  have hclause := h.expr hw c (by simp)
  rw [hq] at hclause
  have hcell := hclause.code.cell
  let s₁ := s.pushPair (s.car q) (s.cdr q)
  let s₂ := s₁.setCar c (.pair s.pairs.size)
  have hkeeps : s.Keeps s₁ := s.keeps_pushPair _ _
  have hsize : s₂.pairs.size = s.pairs.size + 1 := by simp [s₂, s₁]
  have hn' : n ≤ s₂.pairs.size := by lia
  have hnew : s.pairs.size < s₂.pairs.size := by lia
  refine .of_run (y := Eval.update (fun _ => s₂) >>= fun _ => Frame.await f (s.car q) s.pairs.size)
    rfl ?_
  have hbind : ∀ w₂, w.Becomes C s w₂ s₂ →
      Stays C w₂ s₂ (Frame.await f (s.car q) s.pairs.size) (Leads n C f) →
      Stays C w s (Eval.update (fun _ => s₂) >>= fun _ => Frame.await f (s.car q) s.pairs.size)
        (Leads n C f) := by
    intro w₂ hbecomes hstays
    refine Stays.bind (Q := fun w' _ s' => w' = w₂ ∧ s' = s₂) (.of_ok rfl hbecomes ⟨rfl, rfl⟩) ?_
    rintro _ _ _ - ⟨rfl, rfl⟩
    exact hstays
  cases h with
  | shared hexpr hr hcells =>
      -- What is put aside is within reach, so the new pair may be so too.
      have hpair : w.shared .pair q q := by
        have hcar := hw.similar.car (hcells c (by simp))
        rw [hq] at hcar
        cases hcar with
        | pair hq => exact hq
      obtain ⟨ρ', hlater, hsim, hmade⟩ := hw.similar.cons (hw.similar.car hpair) (hw.similar.cdr hpair)
      have hbecomes := hw.later (W := C) hlater hsim fun _ _ _ => rfl
      have hset := hbecomes.holds.setCar (W := C) (hbecomes.gains.le (hcells c (by simp))) hmade.fixed
      have hboth := hbecomes.trans hset fun _ => .inl
      have hreach : (w.withShared ρ'.fixed).shared .pair s.pairs.size s.pairs.size := by
        cases hmade with
        | pair hr => exact ⟨rfl, hr⟩
      have hform : (w.withShared ρ'.fixed).Shared f.expr := hboth.shared (hexpr ▸ .pair hr)
      exact hbind _ hboth (await_stays hset.holds (hboth.gains.le hscope)
        (.inl (hboth.shared (hw.similar.car hpair))) hn' hnew (by simp) (.shared hform)
        (.inl ⟨hreach, rfl⟩) fun w' s' hbecomes' _ => .shared (hbecomes'.shared hform))
  | own hown hC =>
      have hbecomes := hw.keeps (W := C) hkeeps
      have hapart : w.Apart s.pairs.size := hw.apart_of_le (Nat.le_refl _)
      have hset := (hbecomes.holds.replaceCar (hown.apart c (by simp)) (.pair s.pairs.size)).mono
        (V := C) fun q hq => hq ▸ hC c (by simp)
      have hboth := hbecomes.trans hset fun _ => .inl
      have hlt : ∀ d ∈ r :: c :: cs, d < s.pairs.size := hown.list.2
      have hcar : ∀ d ∈ r :: c :: cs, d ≠ c → s₂.car d = s.car d := fun d hd hne => by
        rw [Store.car_setCar_ne hne]
        exact Store.car_eq_of_pair_eq (hkeeps.same .pair d (hlt d hd))
      have hlist : s₂.ListAt f.expr (r :: c :: cs) := by
        refine hown.list.congr (fun d hd => ?_) (by lia)
        rw [Store.cdr_setCar]
        exact Store.cdr_eq_of_pair_eq (hkeeps.same .pair d (hlt d hd))
      have hnodup := List.nodup_cons.1 hown.list.1.nodup
      have hcond : s₂.car r = .keyword .cond := by
        rw [hcar r (by simp) fun heq => hnodup.1 (by simp [heq]), hhead]
      have hfirst : s₂.car c = .pair s.pairs.size := 
        Store.car_setCar (Nat.lt_of_lt_of_le (hlt c (by simp)) (hkeeps.count .pair)) _
      have hrest : s₂.cdr s.pairs.size = s.cdr q := by
        rw [Store.cdr_setCar, Store.cdr, Store.pair_pushPair_self]
      have hcells : ∀ d ∈ s.pairs.size :: r :: c :: cs, (C d ∨ n ≤ d) ∧ d < s₂.pairs.size :=
        List.forall_mem_cons.2 ⟨⟨.inr hn, hnew⟩, fun d hd => ⟨.inl (hC d hd), hlist.2 d hd⟩⟩
      refine hbind w hboth (await_stays hset.holds hscope (hboth.expr hw (hw.expr_car hcell)) hn'
        hnew hcells (.own hlist (fun d hd => List.mem_cons_of_mem _ hd) hown.apart)
        (.inr ⟨hapart, .inr hn⟩) fun w' s' hbecomes' harrives => ?_)
      have hwritten : ∀ d ∈ r :: c :: cs, ¬ (s₂.pairs.size ≤ d ∨ d = s.pairs.size) := by
        intro d hd hd'
        have := hlt d hd
        lia
      have hpair : ∀ d ∈ r :: c :: cs, s'.pair d = s₂.pair d := fun d hd =>
        hbecomes'.pair (hlist.2 d hd) (hown.apart d hd).1 (hwritten d hd)
      have harrived := harrives (hbecomes'.not_shared (k := .pair) (by simp only [Store.count]; lia)
        hapart.1)
      refine .clause rfl (hlist.congr (fun d hd => Store.cdr_eq_of_pair_eq (hpair d hd))
        (hbecomes'.count .pair)) (Nat.lt_of_lt_of_le hnew (hbecomes'.count .pair))
        (List.forall_mem_cons.2 ⟨harrived.1, fun d hd => hbecomes'.apart (hlist.2 d hd)
          (hown.apart d hd) (hwritten d hd)⟩) ?_ ?_ harrived.2.1 ?_ fun d hd => ?_
      · rw [Store.car_eq_of_pair_eq (hpair r (by simp)), hcond]
      · rw [Store.car_eq_of_pair_eq (hpair c (by simp)), hfirst]
      · rw [harrived.2.2, hrest]
        exact hbecomes'.code (hw.code_cdr hcell)
      · have hmem : d ∈ r :: c :: cs := by simp [hd]
        rw [Store.car_eq_of_pair_eq (hpair d hmem), hcar d hmem fun heq =>
          (List.nodup_cons.1 hnodup.2).1 (heq ▸ hd)]
        exact hbecomes'.expr hset.holds (hboth.expr hw (hown.exprs d hmem))

/-- The clauses are tried in order. -/
theorem stepCond_stays (h : w.Works s C f r cs) (hw : w.Holds s)
    (hscope : w.shared .scope f.scope f.scope) (hhead : s.car r = .keyword .cond)
    (hn : n ≤ s.pairs.size) {arrived : Bool}
    (harrived : arrived = true → ∀ a rest, cs = a :: rest → w.Shared (s.car a)) :
    Stays C w s (Frame.stepCond f r arrived cs) (Leads n C f) := by
  induction cs generalizing s arrived with
  | nil =>
      rw [Frame.stepCond]
      exact .pure hw (.bool false)
  | cons c cs ih =>
      have hexpr := h.expr hw c (by simp)
      rw [Frame.stepCond]
      refine .ask_bind ?_
      rcases Form.clause_cases hexpr with ⟨e, he⟩ | ⟨q, hrun, hq, hl, hcell⟩
      · exact .bind_error hw he
      refine .bind_ok hrun (.ask_bind (.ask_bind ?_))
      refine .bind_reads hw (Frame.checks_settledTest _ _ _).readOnly fun settled hsettled => ?_
      cases settled with
      | none => exact awaitTest_stays h hw hscope hhead hn hq
      | some u =>
          have htest : arrived = true → w.Shared (s.car q) := by
            intro ht
            have hc := harrived ht c cs rfl
            rw [hq] at hc
            cases hc with
            | pair hq => exact hw.similar.car hq
          have hu := shared_of_settledTest hw hscope (hw.expr_car hcell) htest hsettled
          obtain ⟨hbecomes, hworks⟩ := h.drop hw (by simp [hhead])
          rw [hq] at hl
          exact decided_stays hw hu (hw.code_cdr hcell) (Store.isList_cdr hl) hn hbecomes
            (ih hworks hbecomes.holds (by simpa using hhead) (by simpa using hn) (by simp))

/-- A clause whose test has arrived is chosen or dropped. -/
theorem stepClause_stays {a q : Ref} (hw : w.Holds s) (hscope : w.shared .scope f.scope f.scope)
    (hlist : s.ListAt f.expr (r :: a :: cs)) (hC : ∀ c ∈ r :: a :: cs, C c)
    (hapart : ∀ c ∈ r :: a :: cs, w.Apart c) (hhead : s.car r = .keyword .cond)
    (hclause : s.car a = .pair q) (htest : w.Shared (s.car q)) (hbody : w.Code (s.cdr q))
    (hexprs : ∀ c ∈ cs, w.Expr s (s.car c)) (hn : n ≤ s.pairs.size) :
    Stays C w s (Frame.stepCond f r true (a :: cs)) (Leads n C f) := by
  rw [Frame.stepCond]
  refine .ask_bind ?_
  rw [hclause]
  by_cases hl : s.isList (.pair q) = true
  · refine .bind_ok (Form.run_clause hl) (.ask_bind (.ask_bind ?_))
    have hsettled : (Frame.settledTest true (s.car q) f.scope).run s = .ok (some (s.car q)) s := by
      unfold Frame.settledTest
      split
      · contradiction
      · rfl
    refine .bind_ok hsettled ?_
    have hmem : ∀ c ∈ r :: cs, c ∈ r :: a :: cs := fun c hc => by
      rcases List.mem_cons.1 hc with rfl | hc <;> simp [*]
    have hdrop := (hw.dropFrom (hapart r (by simp)) (s.cdr a)).mono (V := C)
      fun c hc => hc ▸ hC r (by simp)
    have hrest : (s.setCdr r (s.cdr a)).ListAt f.expr (r :: cs) := by
      refine ⟨⟨hlist.1.1, ?_⟩, fun c hc => by simpa using hlist.2 c (hmem c hc)⟩
      rw [Store.cdr_setCdr (hlist.2 r (by simp))]
      refine hlist.tail.tail.1.congr fun c hc => Store.cdr_setCdr_ne ?_ _
      rintro rfl
      exact (List.nodup_cons.1 hlist.1.nodup).1 (List.mem_cons_of_mem _ hc)
    have hown : w.Own (s.setCdr r (s.cdr a)) f.expr r cs := by
      refine ⟨hrest, fun c hc => hapart c (hmem c hc), fun c hc => ?_, fun hquote => ?_⟩
      · rw [Store.car_setCdr]
        rcases List.mem_cons.1 hc with rfl | hc
        · rw [hhead]
          exact .inl (.keyword _)
        · exact hdrop.expr hw (hexprs c hc)
      · rw [Store.car_setCdr, hhead] at hquote
        cases hquote
    exact decided_stays hw htest hbody (Store.isList_cdr hl) hn hdrop (stepCond_stays
      (.own hown fun c hc => hC c (hmem c hc)) hdrop.holds hscope (by simpa using hhead)
      (by simpa using hn) (by simp))
  · refine .bind_congr (Form.run_clause_misfit hl) ?_
    exact .of_error hw rfl

/-- An application waits for its operator and operands, if they need to be evaluated. -/
theorem stepApplication_stays (h : w.Works s C f r cs) (hw : w.Holds s)
    (hlist : s.ListAt f.expr (r :: cs)) (hscope : w.shared .scope f.scope f.scope)
    (hn : n ≤ s.pairs.size)
    (harrived : f.pushed = true → ∀ c ∈ r :: cs, w.Shared (s.car c)) :
    Stays C w s (Frame.stepApplication f r) (Leads n C f) := by
  have hexpr : f.expr = .pair r := hlist.1.1
  have hexprs : ∀ c ∈ r :: cs, w.Expr s (s.car c) := by
    refine List.forall_mem_cons.2 ⟨?_, h.expr hw⟩
    cases h with
    | shared _ hr _ => exact .inl (hw.similar.car hr)
    | own hown _ => exact hown.exprs r (by simp)
  have hcells : ∀ c ∈ Frame.pendingCells s f, c ∈ r :: cs := by
    intro c hc
    rw [Frame.pendingCells] at hc
    split at hc
    · simp at hc
    · rw [hlist.cells_eq] at hc
      exact List.mem_of_mem_filter hc
  have hsettled : ∀ c ∈ r :: cs, c ∉ Frame.pendingCells s f → w.Shared (s.car c) := by
    intro c hc hpending
    cases hpushed : f.pushed with
    | true => exact harrived hpushed c hc
    | false =>
        rw [Frame.pendingCells, hpushed, if_neg (by simp), hlist.cells_eq, List.mem_filter] at hpending
        refine hw.shared_of_settled (hexprs c hc) ?_
        rw [← Bool.not_eq_true]
        exact fun hneeds => hpending ⟨hc, hneeds⟩
  rw [Frame.stepApplication]
  refine .ask_bind ?_
  split
  · rename_i hempty
    rw [List.isEmpty_iff] at hempty
    rw [hexpr] at hlist
    exact stepCall_stays hw hlist (fun c hc => hsettled c hc (by simp [hempty])) hn
  · obtain ⟨gs, s', hrun, hkeeps, hqueue, hdestinations⟩ := hw.forCells
      (fun c hc => ⟨hlist.2 c (hcells c hc), hexprs c (hcells c hc)⟩) hscope
    have hkept := hw.keeps (W := C) hkeeps
    have hreceives : ∀ ds : List Ref,
        (∀ c ∈ r :: cs, w.shared .pair c c ∧ ds = [] ∨ w.Apart c ∧ (C c ∨ n ≤ c)) →
        ∀ g ∈ gs, ∃ c, g.destination = some c ∧ c < s.pairs.size ∧
          (w.shared .pair c c ∧ ds = [] ∨ w.Apart c ∧ (C c ∨ n ≤ c)) := by
      intro ds hds g hg
      obtain ⟨c, hc, hd⟩ := Machine.exists_of_forall₂_right hdestinations hg
      exact ⟨c, hd, hlist.2 c (hcells c hc), hds c (hcells c hc)⟩
    cases h with
    | shared _ hr hothers =>
        have hshared : w.Shared f.expr := hexpr ▸ .pair hr
        have hall : ∀ c ∈ r :: cs, w.shared .pair c c := List.forall_mem_cons.2 ⟨hr, hothers⟩
        exact .of_ok (Eval.run_bind_ok hrun) hkept ⟨s.pairs.size, [], rfl, rfl, hn, hkeeps.count .pair,
          hqueue, by simp, .shared hshared, fun _ => .inl rfl, hreceives [] fun c hc => .inl ⟨hall c hc, rfl⟩,
          fun w₁ s₁ hran => .shared (hran.becomes.shared hshared)⟩
    | own hown hC =>
        have hspan : w.Occupies s' f.expr (r :: cs) := .own (hlist.congr (fun c hc =>
          Store.cdr_eq_of_pair_eq (hkeeps.same .pair c (hlist.2 c hc))) (hkeeps.count .pair))
          (fun _ hc => hc) hown.apart
        refine .of_ok (Eval.run_bind_ok hrun) hkept ⟨s.pairs.size, r :: cs, rfl, rfl, hn,
          hkeeps.count .pair, hqueue, fun c hc => ⟨.inl (hC c hc), hlist.2 c hc⟩, hspan, by simp,
          hreceives _ fun c hc => .inr ⟨hown.apart c hc, .inl (hC c hc)⟩,
          fun w₁ s₁ hran => ?_⟩
        have hall :=
          (hw.keeps (W := Realm.Written s.pairs.size gs) hkeeps).trans hran.becomes fun _ => .inl
        have hpending : ∀ c ∈ Frame.pendingCells s f,
            w₁.Apart c ∧ w₁.Shared (s₁.car c) ∧ s₁.cdr c = s.cdr c := by
          intro c hc
          obtain ⟨g, hg, hd⟩ := Machine.exists_of_forall₂_right hdestinations.flip hc
          have hlt := hown.list.2 c (hcells c hc)
          obtain ⟨hapart, hcar, hcdr⟩ := hran.arrives g hg c hd (hall.not_shared (k := .pair) hlt
            (hown.apart c (hcells c hc)).1)
          exact ⟨hapart, hcar, hcdr.trans (Store.cdr_eq_of_pair_eq (hkeeps.same .pair c hlt))⟩
        have hwritten : ∀ c ∈ r :: cs, Written s.pairs.size gs c → c ∈ Frame.pendingCells s f := by
          rintro c hc (hle | ⟨g, hg, hd⟩)
          · exact absurd (hown.list.2 c hc) (Nat.not_lt.2 hle)
          · obtain ⟨c', hc', hd'⟩ := Machine.exists_of_forall₂_right hdestinations hg
            rw [hd] at hd'
            cases hd'
            exact hc'
        have hshared : ∀ c ∈ r :: cs, w₁.Shared (s₁.car c) := by
          intro c hc
          by_cases hp : c ∈ Frame.pendingCells s f
          · exact (hpending c hp).2.1
          · have hsame := hall.pair (hown.list.2 c hc) (hown.apart c hc).1 fun hW =>
              hp (hwritten c hc hW)
            rw [Store.car_eq_of_pair_eq hsame]
            exact hall.shared (hsettled c hc hp)
        have hown' : w₁.Own s₁ f.expr r cs := by
          refine hown.arrived hw hall (fun c hc hW => hpending c (hwritten c hc hW)) fun _ q hq => ?_
          refine hshared q (List.mem_cons_of_mem _ (hown.list.mem_of_cdr ?_))
          by_cases hp : r ∈ Frame.pendingCells s f
          · exact (hpending r hp).2.2 ▸ hq
          · rw [← Store.cdr_eq_of_pair_eq (hall.pair (hown.list.2 r (by simp))
              (hown.apart r (by simp)).1 fun hW => hp (hwritten r (by simp) hW))]
            exact hq
        exact .own hown' fun _ => arrived_of_shared (hshared r (by simp)) fun c hc =>
          hshared c (List.mem_cons_of_mem _ hc)

/-! ### Steps -/

theorem stepHead_stays (h : w.Works s C f r cs) (hw : w.Holds s) (hlist : s.ListAt f.expr (r :: cs))
    (hscope : w.shared .scope f.scope f.scope) (hn : n ≤ s.pairs.size)
    (harrived : f.pushed = true → w.Arrived s (s.car r) cs) :
    Stays C w s (Frame.stepHead f r (s.cdr r) (s.car r)) (Leads n C f) := by
  have hlist' : s.ListAt (.pair r) (r :: cs) := (show f.expr = .pair r from hlist.1.1) ▸ hlist
  have happlication : (∀ k, s.car r ≠ .keyword k) →
      Stays C w s (Frame.stepApplication f r) (Leads n C f) := by
    intro hkeyword
    refine stepApplication_stays h hw hlist hscope hn fun hpushed => ?_
    have hall := harrived hpushed
    unfold Arrived at hall
    split at hall
    all_goals first
      | exact absurd ‹_› (hkeyword _)
      | exact List.forall_mem_cons.2 hall
  cases hhead : s.car r with
  | keyword k =>
      cases k with
      | quote =>
          refine h.stays hw hlist fun w' hbecomes hspine hquotes => ?_
          exact value_stays (Form.quotation_stays hbecomes.holds hspine hquotes hhead)
      | ifThen => exact stepConditional_stays h hw hlist' hscope hhead hn
      | define => exact stepDefinition_stays h hw hlist hscope hhead hn harrived
      | set => exact stepAssignment_stays h hw hlist' hscope hhead hn harrived
      | lambda =>
          refine h.stays hw hlist fun w' hbecomes hspine _ => ?_
          exact value_stays (Form.lambda_stays hbecomes.holds hspine.tail (hbecomes.gains.le hscope))
      | letIn => exact letApplication_stays h hw hlist hscope hn
      | cond =>
          rw [hhead] at harrived
          refine .ask_bind ?_
          rw [hlist'.tail.cells_eq]
          exact stepCond_stays h hw hscope hhead hn harrived
      | and =>
          rw [hhead] at harrived
          refine .ask_bind ?_
          rw [hlist'.tail.cells_eq]
          exact stepLogical_stays true h hw hscope (.inl hhead) hn harrived
      | or =>
          rw [hhead] at harrived
          refine .ask_bind ?_
          rw [hlist'.tail.cells_eq]
          exact stepLogical_stays false h hw hscope (.inr hhead) hn harrived
      | begin =>
          refine h.stays hw hlist fun w' hbecomes hspine _ => ?_
          rw [Frame.stepHead]
          cases cs with
          | nil =>
              rw [show s.cdr r = .nil from hlist.1.2.1]
              exact .pure hbecomes.holds .void
          | cons c cs =>
              have hcdr : s.cdr r = .pair c := hlist.1.2.1
              rw [if_neg (by simp [hcdr, Value.isNil])]
              exact ofBody_stays hbecomes.holds (by simp [hcdr, Value.isPair])
                (hbecomes.holds.code_cdr (hspine.cell (by simp))) (hbecomes.gains.le hscope) hn
      | otherwise => exact .raise hw _
  | _ => exact happlication (by simp [hhead])

theorem step_stays (hw : w.Holds s) (hready : w.Ready s f cs) (hscope : w.shared .scope f.scope f.scope)
    (hn : n ≤ s.pairs.size) : Stays (· ∈ cs) w s f.step (Leads n (· ∈ cs) f) := by
  cases hready with
  | shared hshared =>
      rw [Frame.step]
      split
      · exact value_stays (Eval.lookup_stays hw hscope _)
      · exact .raise hw _
      · rename_i q hq
        refine .ask_bind ?_
        split
        · rename_i hl
          rw [hq] at hshared hl
          obtain ⟨ds, hspine⟩ := hw.spine_pair (.inl hshared) hl
          have hcells := hw.chain_shared hshared hspine.list.1
          have hlist : s.ListAt f.expr (q :: ds) := hq ▸ hspine.list
          exact stepHead_stays (.shared hq (hcells q (by simp)) fun c hc =>
            hcells c (List.mem_cons_of_mem _ hc)) hw hlist hscope hn fun _ =>
              arrived_of_shared (hw.similar.car (hcells q (by simp))) fun c hc =>
                hw.similar.car (hcells c (List.mem_cons_of_mem _ hc))
        · exact .pure hw hshared
      · exact .pure hw hshared
  | @own r cs hown harrived =>
      refine .of_run ((Frame.run_step_list hown.list.1.1 hown.list.isList).trans
        (Frame.run_stepForm f r s)) ?_
      exact stepHead_stays (.own hown fun _ hc => hc) hw hown.list hscope hn harrived
  | @clause r a q cs hpushed hlist hbound hapart hhead hclause htest hbody hexprs =>
      refine .of_run ((Frame.run_step_list hlist.1.1 hlist.isList).trans
        (Frame.run_stepForm f r s)) ?_
      have hlist' : s.ListAt (.pair r) (r :: a :: cs) :=
        (show f.expr = .pair r from hlist.1.1) ▸ hlist
      rw [hhead]
      refine .ask_bind ?_
      rw [hlist'.tail.cells_eq, hpushed]
      exact stepClause_stays hw hscope hlist (fun _ hc => List.mem_cons_of_mem _ hc)
        (fun c hc => hapart c (List.mem_cons_of_mem _ hc)) hhead hclause htest hbody hexprs hn

end Realm

end LittleScheme

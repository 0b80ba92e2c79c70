import LittleScheme.Proofs.StayingRuns

/-!
# Frames that wait for their turn

At every moment of a run the frame on top is ready for a step. The pairs it works with are its own;
what the frames below it work on is in other pairs, which it can neither reach nor write, but for the
one that receives its value. When it has run to its end, the frame below it is in the same position.
An exception is an expression that was no proper list when its frame was made: it has not been copied,
so if it becomes a list the frame works on pairs of the program.
-/
namespace LittleScheme

theorem Frame.isPair_of_step_suspend {f g : Frame} {above : List Frame} {s s' : Store}
    (h : f.step.run s = .ok (.suspend g above) s') : f.expr.isPair = true := by
  unfold Frame.step at h
  split at h
  · obtain ⟨v, s₁, -, hv⟩ := Eval.run_bind_eq_ok.1 h
    cases hv
  · cases h
  · rename_i r hr
    rw [hr]
    rfl
  · cases h

/-- The realm of a whole store whose closures are as they are made: no body is empty. -/
theorem Store.Sound.realm {s : Store} (h : s.Sound)
    (hbodies : ∀ r < s.closures.size, (s.closure r).body.isPair = true) :
    Realm.Holds ⟨.identity s, fun _ => False⟩ s where
  similar := h.similar
  diagonal _ _ _ hr := hr.1
  text _ hr := hr.elim
  body a ha := ⟨hbodies a ha.2, .inl (h.closure a ha.2).1.related⟩

/-! ### What a frame can get at -/

namespace Realm

open Value (Related)

variable {w : Realm} {s : Store} {f : Frame} {cs : List Ref} {v : Value}

/-- What a frame with the pairs `cs` can get at: what is within reach, text, and these pairs. -/
def around (w : Realm) (cs : List Ref) : Renaming :=
  fun k a b => a = b ∧ (w.shared k a a ∨ k = .pair ∧ (w.text a ∨ a ∈ cs))

theorem Holds.le_around (hw : w.Holds s) (cs : List Ref) : w.shared.Le (w.around cs) := by
  intro k a b hr
  obtain rfl := hw.diagonal hr
  exact ⟨rfl, .inl hr⟩

theorem Code.around (h : w.Code v) (hw : w.Holds s) (cs : List Ref) : Related (w.around cs) v v := by
  rcases h with hshared | ⟨r, rfl, hr⟩
  · exact hshared.mono (hw.le_around cs)
  · exact .pair ⟨rfl, .inr ⟨rfl, .inl hr⟩⟩

theorem listAt_around {ds : List Ref} (h : s.ListAt v ds) (hds : ∀ c ∈ ds, c ∈ cs) :
    Related (w.around cs) v v := by
  cases ds with
  | nil =>
      rw [h.1.1]
      exact .nil
  | cons d ds =>
      rw [show v = .pair d from h.1.1]
      exact .pair ⟨rfl, .inr ⟨rfl, .inr (hds d (by simp))⟩⟩

/-- After a pair of a list comes the rest of the list. -/
theorem listAt_cdr {ds : List Ref} (h : s.ListAt v ds) {c : Ref} (hc : c ∈ ds) :
    ∃ es, s.ListAt (s.cdr c) es ∧ ∀ e ∈ es, e ∈ ds := by
  induction ds generalizing v with
  | nil => simp at hc
  | cons d ds ih =>
      rcases List.mem_cons.1 hc with rfl | hc
      · exact ⟨ds, h.tail, fun e he => by simp [he]⟩
      · obtain ⟨es, hlist, hes⟩ := ih h.tail hc
        exact ⟨es, hlist, fun e he => by simp [hes e he]⟩

theorem Ready.expr_around (h : w.Ready s f cs) (hw : w.Holds s) :
    Related (w.around cs) f.expr f.expr := by
  cases h with
  | shared h => exact Code.around (.inl h) hw []
  | own h => exact listAt_around h.list fun _ hc => hc
  | clause _ hlist => exact listAt_around hlist fun c hc => List.mem_cons_of_mem _ hc

/-- The pairs of a frame lead to nothing else. -/
theorem Ready.cell_around (h : w.Ready s f cs) (hw : w.Holds s) {c : Ref} (hc : c ∈ cs) :
    c < s.pairs.size ∧ Related (w.around cs) (s.car c) (s.car c) ∧
      Related (w.around cs) (s.cdr c) (s.cdr c) := by
  cases h with
  | shared => simp at hc
  | own h =>
      obtain ⟨es, hlist, hes⟩ := listAt_cdr h.list hc
      exact ⟨h.list.2 c hc, (h.exprs c hc).code.around hw _, listAt_around hlist hes⟩
  | @clause r a q ds _ hlist hbound _ hhead hclause htest hbody hexprs =>
      rcases List.mem_cons.1 hc with rfl | hc
      · exact ⟨hbound, Code.around (.inl htest) hw _, hbody.around hw _⟩
      · obtain ⟨es, hlist', hes⟩ := listAt_cdr hlist hc
        refine ⟨hlist.2 c hc, ?_, listAt_around hlist' fun e he => List.mem_cons_of_mem _ (hes e he)⟩
        rcases List.mem_cons.1 hc with rfl | hc
        · rw [hhead]
          exact .keyword _
        rcases List.mem_cons.1 hc with rfl | hc
        · rw [hclause]
          exact .pair ⟨rfl, .inr ⟨rfl, .inr (by simp)⟩⟩
        · exact (hexprs c hc).code.around hw _

theorem Ready.similar_around (h : w.Ready s f cs) (hw : w.Holds s) : Similar (w.around cs) s s := by
  have hle := hw.le_around cs
  refine ⟨fun k a b hr => ?_, fun k a b b' hr hr' => hr.1.symm.trans hr'.1,
    fun k a a' b hr hr' => hr.1.trans hr'.1.symm, fun k a b hr => ?_, hle hw.similar.stdout,
    hle hw.similar.stdin, rfl⟩
  · obtain ⟨rfl, hshared | ⟨rfl, htext | hmem⟩⟩ := hr
    · exact hw.similar.bound hshared
    · exact ⟨(hw.text htext).bound, (hw.text htext).bound⟩
    · exact ⟨(h.cell_around hw hmem).1, (h.cell_around hw hmem).1⟩
  · obtain ⟨rfl, hshared | ⟨rfl, htext | hmem⟩⟩ := hr
    · exact (hw.similar.alike hshared).congr hle (.refl s k a) (.refl s k a)
    · exact ⟨(hw.text htext).car.code.around hw cs, (hw.code_cdr (.inl htext)).around hw cs⟩
    · exact (h.cell_around hw hmem).2

end Realm

namespace Machine

open Realm (Ran RanAll Written Improper)

/-- A frame that waits works on a list in pairs that nobody else has, none of them among `A`, unless it
has not been copied, as `U` says. -/
def Rests (U : Value → Prop) (w : Realm) (s : Store) (A : Ref → Prop) (g : Frame) : Prop :=
  g.expr.isPair = true → U g.expr ∨ ∃ ds, s.ListAt g.expr ds ∧ ∀ c ∈ ds, w.Apart c ∧ ¬ A c

/-- A frame on top of others, with the pairs `cs`, that may take a step. -/
structure Tops (U : Value → Prop) (w : Realm) (s : Store) (f : Frame) (R : List Frame) (cs : List Ref) :
    Prop where
  ready : w.Ready s f cs
  scope : w.shared .scope f.scope f.scope
  receives : w.Receives s.pairs.size f.destination
  apart : ∀ c, f.destination = some c → c ∉ cs
  uncopied : cs = [] → f.expr.isPair = true → U f.expr
  adopted : ∀ c, f.destination = some c → w.shared .pair c c →
    ∃ g, R.find? (·.pushed) = some g ∧ U g.expr
  rests : ∀ g ∈ R, Rests U w s (· ∈ cs) g

/-- A stack whose top frame may take a step. When that frame has run the rest is such a stack, and in
the end `K` holds. -/
def Stands (U : Value → Prop) (K : Realm → Store → Prop) : List Frame → Realm → Store → Prop
  | [], w, s => K w s
  | f :: R, w, s => ∃ cs, Tops U w s f R cs ∧
      ∀ w' s', Ran cs f.destination w s w' s' → Stands U K R w' s'

/-- Stacks that wait for the value of a call made by their top frame. -/
def Awaiting (U : Value → Prop) : List Suspended → Realm → Store → Prop
  | [], _, _ => True
  | ⟨R, x, d⟩ :: B, w, s => w.Shared x ∧ w.Receives s.pairs.size d ∧
      ∀ w' s', Ran [] d w s w' s' → Stands U (Awaiting U B) R w' s'

variable {limit : Nat} {U U' : Value → Prop} {K K' : Realm → Store → Prop} {w w' w₁ : Realm}
  {s s' s₁ : Store} {A A' W : Ref → Prop} {f g : Frame} {R gs : List Frame} {B : List Suspended}
  {cs : List Ref} {P : Value → Prop}

/-! ### Frames that rest -/

theorem Rests.mono (h : Rests U w s A g) (hA : ∀ c < s.pairs.size, A' c → A c) : Rests U w s A' g := by
  intro hpair
  refine (h hpair).imp_right fun ⟨ds, hlist, hds⟩ => ⟨ds, hlist, fun c hc => ⟨(hds c hc).1, ?_⟩⟩
  exact fun h => (hds c hc).2 (hA c (hlist.2 c hc) h)

theorem Rests.becomes (h : Rests U w s A g) (hbecomes : w.Becomes W s w' s') (hW : ∀ c, W c → A c) :
    Rests U w' s' A g := by
  intro hpair
  refine (h hpair).imp_right fun ⟨ds, hlist, hds⟩ => ⟨ds, hlist.congr (fun c hc => ?_)
    (hbecomes.count .pair), fun c hc => ⟨hbecomes.apart (hlist.2 c hc) (hds c hc).1 ?_, (hds c hc).2⟩⟩
  · exact Store.cdr_eq_of_pair_eq (hbecomes.pair (hlist.2 c hc) (hds c hc).1.1
      fun h => (hds c hc).2 (hW c h))
  · exact fun h => (hds c hc).2 (hW c h)

/-- The value of the frame on top may go to one of the pairs. -/
theorem Rests.ran (h : Rests U w s A g) {d : Option Ref} (hran : Ran cs d w s w' s')
    (hcs : ∀ c ∈ cs, A c) : Rests U w' s' A g := by
  intro hpair
  refine (h hpair).imp_right fun ⟨ds, hlist, hds⟩ => ?_
  have hnot : ∀ c ∈ ds, c ∉ cs := fun c hc hmem => (hds c hc).2 (hcs c hmem)
  have hapart : ∀ c ∈ ds, w'.Apart c :=
    fun c hc => hran.apart (hlist.2 c hc) (hnot c hc) (hds c hc).1
  refine ⟨ds, hlist.congr (fun c hc => ?_) (hran.becomes.count .pair), fun c hc =>
    ⟨hapart c hc, (hds c hc).2⟩⟩
  exact hran.cdr_eq (hlist.2 c hc) (hnot c hc) (hapart c hc).1

theorem rests_of_fresh {v : Value} (h : w.Fresh s v cs) (hexpr : g.expr = v)
    (huncopied : cs = [] → v.isPair = true → U v) (hA : ∀ c ∈ cs, ¬ A c) : Rests U w s A g := by
  subst hexpr
  intro hpair
  cases h with
  | shared _ => exact .inl (huncopied rfl hpair)
  | own hown => exact .inr ⟨_, hown.list, fun c hc => ⟨hown.apart c hc, hA c hc⟩⟩

theorem rests_of_queue {a : Nat} (h : w.Queue P s a gs)
    (hP : ∀ g ∈ gs, P g.expr → g.expr.isPair = true → U g.expr) : ∀ g ∈ gs, Rests U w s (· < a) g := by
  induction gs generalizing a with
  | nil => simp
  | cons g gs ih =>
      obtain ⟨b, cs, hbegins, hrest⟩ := h
      have hothers := ih hrest fun g hg => hP g (by simp [hg])
      intro g' hg'
      rcases List.mem_cons.1 hg' with rfl | hg'
      · exact rests_of_fresh hbegins.fresh rfl (fun hcs => hP _ (by simp) (hbegins.uncopied hcs))
          fun c hc => Nat.not_lt.2 (hbegins.cells c hc).1
      · exact (hothers g' hg').mono fun c _ hc => Nat.lt_of_lt_of_le hc hbegins.le

theorem find?_queue_append {a : Nat} (h : w.Queue P s a gs) (R : List Frame) :
    (gs ++ R).find? (·.pushed) = R.find? (·.pushed) := by
  induction gs generalizing a with
  | nil => rfl
  | cons g gs ih =>
      obtain ⟨b, cs, hbegins, hrest⟩ := h
      rw [List.cons_append, List.find?_cons_of_neg (by simp [hbegins.pushed]), ih hrest]

/-! ### Stacks -/

theorem Tops.mono (h : Tops U w s f R cs) (hU : ∀ v, U v → U' v) : Tops U' w s f R cs :=
  { h with
    uncopied := fun hcs hpair => hU _ (h.uncopied hcs hpair)
    adopted := fun c hc hshared => (h.adopted c hc hshared).imp fun _ hg => ⟨hg.1, hU _ hg.2⟩
    rests := fun g hg hpair => (h.rests g hg hpair).imp_left (hU _) }

theorem Stands.mono {F : List Frame} (h : Stands U K F w s) (hU : ∀ v, U v → U' v)
    (hK : ∀ w s, K w s → K' w s) : Stands U' K' F w s := by
  induction F generalizing w s with
  | nil => exact hK w s h
  | cons f R ih =>
      obtain ⟨cs, htops, hrest⟩ := h
      exact ⟨cs, htops.mono hU, fun w' s' hran => ih (hrest w' s' hran)⟩

theorem Awaiting.mono (h : Awaiting U B w s) (hU : ∀ v, U v → U' v) : Awaiting U' B w s := by
  induction B generalizing w s with
  | nil => trivial
  | cons outer B ih =>
      obtain ⟨hx, hd, hrest⟩ := h
      exact ⟨hx, hd, fun w' s' hran => (hrest w' s' hran).mono hU fun _ _ h => ih h⟩

/-- Frames that have done nothing yet stand above others, when these will stand in the end. -/
theorem stands_queue {a : Nat} (hw : w.Holds s) (hqueue : w.Queue P s a gs) (ha : a ≤ s.pairs.size)
    (hP : ∀ g ∈ gs, P g.expr → g.expr.isPair = true → U g.expr)
    (hreceives : ∀ g ∈ gs, w.Receives a g.destination)
    (hadopted : ∀ g ∈ gs, ∀ c, g.destination = some c → w.shared .pair c c →
      ∃ h, R.find? (·.pushed) = some h ∧ U h.expr)
    (hrests : ∀ g ∈ R, Rests U w s (a ≤ ·) g)
    (hnext : ∀ w' s', RanAll a gs w s w' s' → Stands U K R w' s') : Stands U K (gs ++ R) w s := by
  induction gs generalizing w s a with
  | nil => exact hnext w s (hw.ranNone a)
  | cons g gs ih =>
      obtain ⟨b, cs, hbegins, hrest⟩ := hqueue
      have hold : ∀ c < a, c ∉ cs := fun c hc hmem => Nat.not_lt.2 (hbegins.cells c hmem).1 hc
      have hothers : ∀ g' ∈ gs, w.Receives a g'.destination := fun g' hg' => hreceives g' (by simp [hg'])
      have hfirst := hreceives g (by simp)
      rw [List.cons_append]
      refine ⟨cs, ⟨hbegins.fresh.ready hbegins.pushed, hbegins.scope, fun c hc => ?_, fun c hc => ?_,
        fun hcs => hP g (by simp) (hbegins.uncopied hcs), fun c hc hshared => ?_, fun g' hg' => ?_⟩,
        fun w' s' hran => ?_⟩
      · exact ⟨Nat.lt_of_lt_of_le (hfirst c hc).1 ha, (hfirst c hc).2⟩
      · exact hold c (hfirst c hc).1
      · rw [find?_queue_append hrest]
        exact hadopted g (by simp) c hc hshared
      · rcases List.mem_append.1 hg' with hg' | hg'
        · exact (rests_of_queue hrest (fun g hg => hP g (by simp [hg])) g' hg').mono
            fun c _ hc => (hbegins.cells c hc).2
        · exact (hrests g' hg').mono fun c _ hc => (hbegins.cells c hc).1
      · refine ih hran.becomes.holds ?_ (Nat.le_trans hbegins.bound (hran.becomes.count .pair))
          (fun g' hg' => hP g' (by simp [hg'])) (fun g' hg' c hc => ?_) (fun g' hg' c hc hshared => ?_)
          (fun g' hg' => ?_) fun w'' s'' hall => hnext w'' s'' (hran.all hbegins hreceives hall)
        · exact hran.queue hw hrest (fun c hc => (hbegins.cells c hc).2)
            fun c hc => Nat.lt_of_lt_of_le (hfirst c hc).1 hbegins.le
        · obtain ⟨hlt, hreceive⟩ := hran.receives ha (hothers g' hg')
            (fun c hc => hold c (hothers g' hg' c hc).1) c hc
          exact ⟨Nat.lt_of_lt_of_le hlt hbegins.le, hreceive⟩
        · refine hadopted g' (by simp [hg']) c hc (not_not.1 fun hnot => ?_)
          exact hran.becomes.not_shared (k := .pair)
            (Nat.lt_of_lt_of_le (hothers g' hg' c hc).1 ha) hnot hshared
        · exact ((hrests g' hg').ran hran fun c hc => (hbegins.cells c hc).1).mono
            fun c _ hc => Nat.le_trans hbegins.le hc

/-! ### Steps -/

/-- The top frame has taken a step. -/
theorem Tops.stepped (h : Tops U w s f R cs) (hbecomes : w.Becomes (· ∈ cs) s w₁ s₁) :
    Stepped w s f cs w₁ s₁ := ⟨hbecomes, h.receives, h.apart⟩

/-- Frames that rest below are as they were, and new pairs are none of theirs. -/
theorem Tops.rests_after (h : Tops U w s f R cs) (hbecomes : w.Becomes (· ∈ cs) s w₁ s₁) :
    ∀ g ∈ R, Rests U w₁ s₁ (fun c => c ∈ cs ∨ s.pairs.size ≤ c) g := fun g hg =>
  ((h.rests g hg).mono fun _ hc hmem => hmem.resolve_right fun hle =>
    Nat.not_lt.2 hle hc).becomes hbecomes fun _ => .inl

theorem Tops.adopted_after (h : Tops U w s f R cs) (hbecomes : w.Becomes W s w₁ s₁) :
    ∀ c, f.destination = some c → w₁.shared .pair c c → ∃ g, R.find? (·.pushed) = some g ∧ U g.expr :=
  fun c hc hshared => h.adopted c hc (not_not.1 fun hnot =>
    hbecomes.not_shared (k := .pair) (h.receives c hc).1 hnot hshared)

/-- The frame has run when its last step was taken and its value has been delivered. -/
theorem Stepped.ran {w₂ : Realm} {s₂ : Store} (h : Stepped w s f cs w₁ s₁)
    (hbecomes : w₁.Becomes (fun r => (r ∈ cs ∨ s.pairs.size ≤ r) ∨ f.destination = some r) s₁ w₂ s₂)
    (harrives : ∀ c, f.destination = some c → w₂.Arrives s₁ s₂ c) : Ran cs f.destination w s w₂ s₂ where
  becomes := by
    refine (h.becomes.mono fun _ => .inl).trans hbecomes ?_
    rintro r ((hmem | hle) | hd)
    · exact .inl (.inl hmem)
    · exact .inr hle
    · exact .inl (.inr hd)
  arrives c hc := h.arrives hbecomes hc (harrives c hc)

/-- A frame that goes on with what it has not copied does not have it as its own. -/
theorem Suspends.uncopied {n a : Nat} {C : Ref → Prop} {ds : List Ref} (htops : Tops U w s f R cs)
    (hbecomes : w.Becomes W s w₁ s₁) (h : Realm.Suspends n C f w₁ s₁ g gs a ds)
    (hnew : g.expr.isPair = true → s₁.isList g.expr = false → U g.expr) (hds : ds = [])
    (hpair : g.expr.isPair = true) : U g.expr := by
  rcases h.uncopied hds with hexpr | himproper
  swap
  · exact hnew hpair (himproper hpair)
  have hshared : w₁.Shared g.expr := by
    have hoccupies := h.occupies
    subst hds
    cases hoccupies with
    | shared hshared => exact hshared
    | @own _ es hlist hmem _ =>
        cases es with
        | nil =>
            rw [hlist.1.1] at hpair
            cases hpair
        | cons e es => exact absurd (hmem e (by simp)) List.not_mem_nil
  rw [hexpr] at hshared hpair ⊢
  have hnot : ∀ {r : Ref} {es : List Ref}, s.ListAt f.expr (r :: es) → ¬ w.shared .pair r r → False := by
    intro r es hlist hr
    rw [hlist.1.1] at hshared
    cases hshared with
    | pair hr' => exact hbecomes.not_shared (k := .pair) (hlist.2 r (by simp)) hr hr'
  have hready := htops.ready
  cases hready with
  | shared _ => exact htops.uncopied rfl hpair
  | own hown => exact (hnot hown.list (hown.apart _ (by simp)).1).elim
  | clause _ hlist _ hapart => exact (hnot hlist (hapart _ (by simp)).1).elim

variable {x : Value} {c c' : Machine × Store}

/-- The realm of a machine in the course of a run: its stacks stand, and its result may be handed out. -/
structure Standing (U : Value → Prop) (c : Machine × Store) (w : Realm) : Prop where
  holds : w.Holds c.2
  result : w.Shared c.1.result
  stands : Stands U (Awaiting U c.1.suspended) c.1.frames w c.2

theorem Standing.value {v : Value} (h : Standing U (⟨f :: R, x, B⟩, s) w) (htops : Tops U w s f R cs)
    (hrest : ∀ w' s', Ran cs f.destination w s w' s' → Stands U (Awaiting U B) R w' s')
    (hbecomes : w.Becomes (· ∈ cs) s w₁ s₁) (hv : w₁.Shared v)
    (hadvance : (advance ⟨R, x, B⟩ f.destination (.value v)).run s₁ = .ok c'.1 c'.2) :
    ∃ w', Standing U c' w' := by
  have hstepped := htops.stepped hbecomes
  obtain ⟨y, s₂, hrun, hbecomes₂, hy, harrives⟩ :=
    exists_deliver hbecomes.holds hstepped.receives_new hv (hbecomes.shared h.result) R B
  obtain ⟨m, t⟩ := c'
  obtain ⟨rfl, rfl⟩ := EStateM.Result.ok.inj (hrun.symm.trans hadvance)
  exact ⟨w₁, hbecomes₂.holds, hy, hrest _ _ (hstepped.ran (hbecomes₂.mono fun _ => .inr)
    fun c hc => (harrives c hc).1)⟩

theorem Standing.call {procedure : Value} {args : List Value} (h : Standing U (⟨f :: R, x, B⟩, s) w)
    (htops : Tops U w s f R cs)
    (hrest : ∀ w' s', Ran cs f.destination w s w' s' → Stands U (Awaiting U B) R w' s')
    (hbecomes : w.Becomes (· ∈ cs) s w₁ s₁)
    (hleads : w₁.Shared procedure ∧ ∀ v ∈ args, w₁.Shared v)
    (hadvance : (advance ⟨R, x, B⟩ f.destination (.call procedure args)).run s₁ = .ok c'.1 c'.2)
    (hnew : ∀ g ∈ c'.1.all, g.expr.isPair = true → c'.2.isList g.expr = false → U g.expr) :
    ∃ w', Standing U c' w' := by
  have hstepped := htops.stepped hbecomes
  obtain ⟨g, ds, w₂, s₂, hrun, hbecomes₂, hnone, hbegins⟩ :=
    exists_inner (W := fun _ => False) hbecomes.holds hleads.1 hleads.2 R x B f.destination
  obtain ⟨m, t⟩ := c'
  obtain ⟨rfl, rfl⟩ := EStateM.Result.ok.inj (hrun.symm.trans hadvance)
  have hds : ∀ c, f.destination = some c → c ∉ ds :=
    fun c hc hmem => Nat.not_lt.2 (hbegins.cells c hmem).1 (hstepped.receives_new c hc).1
  have htop : Tops U w₂ s₂ g [] ds := by
    refine ⟨hbegins.fresh.ready hbegins.pushed, hbegins.scope, fun c hc => ?_, fun c hc => ?_,
      fun hds hpair => hnew g (by simp [all]) hpair (hbegins.uncopied hds hpair), fun c hc => ?_, by simp⟩
    all_goals simp [hnone] at hc
  refine ⟨w₂, hbecomes₂.holds, .void, ds, htop, fun w' s' hran => ?_⟩
  have hinner : w₁.Becomes (· ∈ ds) s₁ w' s' :=
    (hbecomes₂.mono fun _ => False.elim).trans hran.becomes fun r hr => .inl (hr.resolve_right (by simp [hnone]))
  refine ⟨hinner.shared (hbecomes.shared h.result), fun c hc => ?_, fun w'' s'' hran' => hrest w'' s'' ?_⟩
  · obtain ⟨hlt, hreceive⟩ := hinner.receives (Nat.le_refl _) hstepped.receives_new hds c hc
    exact ⟨Nat.lt_of_lt_of_le hlt (hinner.count .pair), hreceive⟩
  · have hnewer : ∀ r ∈ ds, (r ∈ cs ∨ s.pairs.size ≤ r) ∨ f.destination = some r :=
      fun r hr => .inl (.inr (Nat.le_trans (hbecomes.count .pair) (hbegins.cells r hr).1))
    exact hstepped.ran ((hinner.mono hnewer).trans hran'.becomes fun r hr =>
      .inl (.inr (hr.resolve_left List.not_mem_nil))) fun c hc =>
        hinner.arrives hran'.becomes (hstepped.receives_new c hc).1 (hds c hc) (hran'.arrives c hc)

theorem Standing.replace (h : Standing U (⟨f :: R, x, B⟩, s) w) (htops : Tops U w s f R cs)
    (hrest : ∀ w' s', Ran cs f.destination w s w' s' → Stands U (Awaiting U B) R w' s')
    (hbecomes : w.Becomes (· ∈ cs) s w₁ s₁)
    (hleads : w₁.Leads s.pairs.size (· ∈ cs) f (.replace gs) s₁)
    (hnew : ∀ g ∈ gs, g.expr.isPair = true → s₁.isList g.expr = false → U g.expr) :
    Standing U (⟨gs ++ R, x, B⟩, s₁) w₁ := by
  have hstepped := htops.stepped hbecomes
  obtain ⟨hne, hqueue, hd⟩ := hleads
  refine ⟨hbecomes.holds, hbecomes.shared h.result, stands_queue hbecomes.holds hqueue
    (hbecomes.count .pair) (fun g hg himproper hpair => hnew g hg hpair (himproper hpair))
    (fun g hg => hd g hg ▸ hstepped.receives_after) (fun g hg => hd g hg ▸ htops.adopted_after hbecomes)
    (fun g hg => (htops.rests_after hbecomes g hg).mono fun _ _ => .inr) fun w' s' hall => ?_⟩
  refine hrest w' s' (hstepped.ran (hall.becomes.mono ?_) fun c hc => ?_)
  · rintro r (hle | ⟨g, hg, hr⟩)
    · exact .inl (.inr hle)
    · exact .inr (hd g hg ▸ hr)
  · obtain ⟨g, hg⟩ := List.exists_mem_of_ne_nil gs hne
    exact hall.arrives g hg c ((hd g hg).trans hc)

theorem Standing.suspend (h : Standing U (⟨f :: R, x, B⟩, s) w) (htops : Tops U w s f R cs)
    (hrest : ∀ w' s', Ran cs f.destination w s w' s' → Stands U (Awaiting U B) R w' s')
    (hbecomes : w.Becomes (· ∈ cs) s w₁ s₁) (hstep : f.step.run s = .ok (.suspend g gs) s₁)
    (hleads : w₁.Leads s.pairs.size (· ∈ cs) f (.suspend g gs) s₁)
    (hnew : ∀ g' ∈ gs ++ [g], g'.expr.isPair = true → s₁.isList g'.expr = false → U g'.expr) :
    Standing U (⟨gs ++ g :: R, x, B⟩, s₁) w₁ := by
  have hstepped := htops.stepped hbecomes
  obtain ⟨a, ds, hsuspends⟩ := hleads
  have huncopied : ds = [] → g.expr.isPair = true → U g.expr :=
    Suspends.uncopied htops hbecomes hsuspends (hnew g (by simp))
  have hmine : ∀ c, f.destination = some c → ¬ (c ∈ cs ∨ s.pairs.size ≤ c) := by
    rintro c hc (hmem | hle)
    · exact htops.apart c hc hmem
    · exact Nat.not_lt.2 hle (htops.receives c hc).1
  have hpushed : gs ≠ [] → g = { f with pushed := true } := Frame.eq_of_step_suspend hstep
  refine ⟨hbecomes.holds, hbecomes.shared h.result, stands_queue hbecomes.holds hsuspends.queue
    hsuspends.bound (fun g' hg' himproper hpair => hnew g' (by simp [hg']) hpair (himproper hpair))
    (fun g' hg' c hc => ?_) (fun g' hg' c hc hshared => ?_) (fun g' hg' => ?_) fun w' s' hall => ?_⟩
  · obtain ⟨c', hc', hlt, hreceive⟩ := hsuspends.receives g' hg'
    obtain rfl := Option.some.inj (hc'.symm.trans hc)
    exact ⟨hlt, hreceive.imp And.left And.left⟩
  · obtain ⟨c', hc', -, hreceive⟩ := hsuspends.receives g' hg'
    obtain rfl := Option.some.inj (hc'.symm.trans hc)
    have hds := (hreceive.resolve_right fun hapart => hapart.1.1 hshared).2
    have hg := hpushed (List.ne_nil_of_mem hg')
    have hexpr : g.expr = f.expr := by rw [hg]
    refine ⟨g, List.find?_cons_of_pos (by rw [hg]), huncopied hds ?_⟩
    rw [hexpr]
    exact Frame.isPair_of_step_suspend hstep
  · rcases List.mem_cons.1 hg' with rfl | hg'
    · intro hpair
      have hoccupies := hsuspends.occupies
      cases hoccupies with
      | shared _ => exact .inl (huncopied rfl hpair)
      | own hlist hmem hapart => exact .inr ⟨_, hlist, fun c hc => ⟨hapart c hc,
          Nat.not_le.2 (hsuspends.cells c (hmem c hc)).2⟩⟩
    · exact (htops.rests_after hbecomes g' hg').mono fun _ _ hle => .inr (Nat.le_trans hsuspends.le hle)
  · have hbecomes₂ : w₁.Becomes (fun r => r ∈ cs ∨ s.pairs.size ≤ r) s₁ w' s' := by
      refine hall.becomes.restrict ?_
      rintro r (hle | ⟨g', hg', hr⟩)
      · exact .inl (.inr (Nat.le_trans hsuspends.le hle))
      · obtain ⟨c, hc, -, ⟨hshared, -⟩ | ⟨-, hmem⟩⟩ := hsuspends.receives g' hg'
        · exact .inr (.inr (Option.some.inj (hc.symm.trans hr) ▸ hshared))
        · exact .inl (Option.some.inj (hc.symm.trans hr) ▸ hmem)
    have htop : Tops U w' s' g R ds := by
      refine ⟨hsuspends.ready w' s' hall, ?_, fun c hc => ?_, fun c hc hmem => ?_, huncopied,
        fun c hc hshared => ?_, fun g' hg' => ?_⟩
      · rw [hsuspends.scope]
        exact hbecomes₂.gains.le (hbecomes.gains.le htops.scope)
      · rw [hsuspends.destination] at hc
        obtain ⟨hlt, hreceive⟩ := hbecomes₂.receives (Nat.le_refl _) hstepped.receives_new hmine c hc
        exact ⟨Nat.lt_of_lt_of_le hlt (hbecomes₂.count .pair), hreceive⟩
      · rw [hsuspends.destination] at hc
        exact hmine c hc (hsuspends.cells c hmem).1
      · rw [hsuspends.destination] at hc
        refine htops.adopted_after hbecomes c hc (not_not.1 fun hnot => ?_)
        exact hbecomes₂.not_shared (k := .pair) (hstepped.receives_new c hc).1 hnot hshared
      · exact ((htops.rests_after hbecomes g' hg').becomes hbecomes₂ fun _ h => h).mono
          fun c _ hc => (hsuspends.cells c hc).1
    refine ⟨ds, htop, fun w'' s'' hran => hrest w'' s'' ?_⟩
    rw [hsuspends.destination] at hran
    refine hstepped.ran ((hbecomes₂.mono fun _ => .inl).trans hran.becomes fun r hr =>
      .inl (hr.imp_left fun hmem => (hsuspends.cells r hmem).1)) fun c hc => ?_
    exact hbecomes₂.arrives hran.becomes (hstepped.receives_new c hc).1 (hmine c hc) (hran.arrives c hc)

/-- A step leads from standing stacks to standing stacks. What is no list when a frame is made for it
may be counted among what has not been copied. -/
theorem Standing.next (h : Standing U c w) (hnext : Next limit c c')
    (hnew : ∀ g ∈ c'.1.all, g.expr.isPair = true → c'.2.isList g.expr = false → U g.expr) :
    ∃ w', Standing U c' w' := by
  obtain ⟨⟨F, x, B⟩, s⟩ := c
  cases F with
  | nil =>
      cases B with
      | nil => cases hnext
      | cons outer B =>
          obtain ⟨R, y, d⟩ := outer
          obtain ⟨hy, hd, hrest⟩ := h.stands
          obtain ⟨z, s₁, hrun, hbecomes, hz, harrives⟩ := exists_deliver h.holds hd h.result hy R B
          obtain ⟨m, t⟩ := c'
          obtain ⟨rfl, rfl⟩ := EStateM.Result.ok.inj (hrun.symm.trans (next_nil_iff.1 hnext))
          exact ⟨w, hbecomes.holds, hz, hrest _ _ ⟨hbecomes.mono fun _ => .inr,
            fun c hc => (harrives c hc).1⟩⟩
  | cons f R =>
      obtain ⟨cs, htops, hrest⟩ := h.stands
      obtain ⟨t, s₁, hstep, hadvance⟩ := next_cons_iff.1 hnext
      have hstays := Realm.step_stays (n := s.pairs.size) h.holds htops.ready htops.scope (Nat.le_refl _)
      rw [Stays, hstep] at hstays
      obtain ⟨w₁, hbecomes, hleads⟩ := hstays
      cases t with
      | value v => exact h.value htops hrest hbecomes hleads hadvance
      | call procedure args => exact h.call htops hrest hbecomes hleads hadvance hnew
      | replace gs =>
          obtain ⟨m, t⟩ := c'
          obtain ⟨rfl, rfl⟩ := EStateM.Result.ok.inj hadvance
          exact ⟨w₁, h.replace htops hrest hbecomes hleads fun g hg => hnew g (by simp [all, hg])⟩
      | suspend g gs =>
          obtain ⟨m, t⟩ := c'
          obtain ⟨rfl, rfl⟩ := EStateM.Result.ok.inj hadvance
          refine ⟨w₁, h.suspend htops hrest hbecomes hstep hleads fun g' hg' => hnew g' ?_⟩
          rcases List.mem_append.1 hg' with hg' | hg'
          · simp [all, hg']
          · simp [all, List.mem_singleton.1 hg']

theorem Standing.mono (h : Standing U c w) (hU : ∀ v, U v → U' v) : Standing U' c w :=
  ⟨h.holds, h.result, h.stands.mono hU fun _ _ h => h.mono hU⟩

/-! ### Runs -/

theorem standing_start (hs : s.Sound) (hbodies : ∀ r < s.closures.size, (s.closure r).body.isPair = true)
    {expr : Value} (hexpr : expr.Within s) {scope : Ref} (hscope : scope < s.scopes.size) {m : Machine}
    (hstart : (start expr scope).run s = .ok m s₁) :
    ∃ w, Standing (Unlisted limit (m, s₁) (m, s₁)) (m, s₁) w := by
  have hw := hs.realm hbodies
  have hkept := hw.keeps (W := fun _ => False) (Realm.keeps_copySpine s expr)
  obtain ⟨cs, hbegins⟩ := hw.begins (.inl hexpr.related) ⟨rfl, hscope⟩ none (.refl (s.copySpine expr).2)
  obtain ⟨rfl, rfl⟩ := EStateM.Result.ok.inj hstart
  refine ⟨_, hkept.holds, .void, cs, ⟨hbegins.fresh.ready hbegins.pushed, hbegins.scope, by simp [Realm.Receives],
    by simp, fun hcs hpair => ?_, by simp, by simp⟩, fun _ _ _ => trivial⟩
  exact ⟨_, .refl _, .refl _, hbegins.uncopied hcs hpair, _, List.mem_singleton.2 rfl, rfl⟩

/-- All along a run the stacks stand. -/
theorem Standing.reaches {c₀ : Machine × Store} (h : ∃ w, Standing (Unlisted limit c₀ c₀) c₀ w)
    (hc : Reaches limit c₀ c) : ∃ w, Standing (Unlisted limit c₀ c) c w := by
  induction hc with
  | refl => exact h
  | @tail c c' hprefix hnext ih =>
      obtain ⟨w, hstanding⟩ := ih
      have hall := hprefix.tail hnext
      exact (hstanding.mono fun v hv => hv.mono hnext.reaches).next hnext
        fun g hg _ hl => ⟨c', hall, .refl c', hl, g, hg, rfl⟩

/-- A frame gives way to others, never to nothing: bodies are not empty. -/
theorem Standing.replace_ne_nil (h : Standing U (⟨f :: R, x, B⟩, s) w)
    (hstep : f.step.run s = .ok (.replace gs) s') : gs ≠ [] := by
  obtain ⟨cs, htops, -⟩ := h.stands
  have hstays := Realm.step_stays (n := s.pairs.size) h.holds htops.ready htops.scope (Nat.le_refl _)
  rw [Stays, hstep] at hstays
  obtain ⟨w₁, -, hne, -⟩ := hstays
  exact hne

/-- What a frame can get at is closed: nothing in it leads to anything else. -/
structure Encloses (ρ : Renaming) (s : Store) (f : Frame) : Prop where
  similar : Similar ρ s s
  diagonal : ∀ ⦃k a b⦄, ρ k a b → a = b
  body : ∀ ⦃a⦄, ρ .closure a a → Value.Related ρ (s.closure a).body (s.closure a).body
  expr : Value.Related ρ f.expr f.expr
  scope : ρ .scope f.scope f.scope

/-- The frame on top can get neither at the pair that receives its value nor at those that the frames
below work on, unless these are pairs that have not been copied. -/
theorem Standing.encloses (h : Standing U (⟨f :: R, x, B⟩, s) w) :
    ∃ ρ : Renaming, Encloses ρ s f ∧
      (∀ c, f.destination = some c → c < s.pairs.size ∧
        (ρ .pair c c → ∃ g, R.find? (·.pushed) = some g ∧ U g.expr)) ∧
      ∀ g ∈ R, ¬ U g.expr → ∀ c ∈ s.cells g.expr, c < s.pairs.size ∧ ¬ ρ .pair c c := by
  obtain ⟨cs, htops, -⟩ := h.stands
  refine ⟨w.around cs, ⟨htops.ready.similar_around h.holds, fun _ _ _ hr => hr.1, fun a ha => ?_,
    htops.ready.expr_around h.holds, rfl, .inl htops.scope⟩, fun c hc => ⟨(htops.receives c hc).1, ?_⟩, ?_⟩
  · obtain ⟨-, hshared | ⟨hk, -⟩⟩ := ha
    · exact (h.holds.body hshared).2.around h.holds cs
    · cases hk
  · rintro ⟨-, hshared | ⟨-, htext | hmem⟩⟩
    · exact htops.adopted c hc hshared
    · rcases (htops.receives c hc).2 with hshared | hapart
      · exact htops.adopted c hc hshared
      · exact absurd htext hapart.2
    · exact absurd hmem (htops.apart c hc)
  · intro g hg hU c hc
    obtain ⟨ds, hlist, hds⟩ := (htops.rests g hg (isPair_of_mem_cells hc)).resolve_left hU
    rw [hlist.cells_eq] at hc
    obtain ⟨hapart, hnot⟩ := hds c hc
    refine ⟨hlist.2 c hc, ?_⟩
    rintro ⟨-, hshared | ⟨-, htext | hmem⟩⟩
    · exact hapart.1 hshared
    · exact hapart.2 htext
    · exact hnot hmem

end Machine
end LittleScheme

import LittleScheme.Interpreter
import LittleScheme.Proofs.TailCalls
import LittleScheme.Proofs.Untouched

/-!
# Applications

The stack machine evaluates the operator and the operands of an application in frames of their own,
from left to right, and their values come to stand in a copy of the form. Nothing refers to that
copy but the frame of the application, so what has arrived there stays until the call is made.
-/
namespace LittleScheme

open Value (Related)

namespace Machine

variable {limit : Nat}

/-! ### The result so far -/

/-- Machines that differ at most in the result of the lowest stack. -/
inductive Alike : Machine → Machine → Prop
  | lowest (F : List Frame) (v v' : Value) : Alike ⟨F, v, []⟩ ⟨F, v', []⟩
  | upper (F : List Frame) (u : Value) (d : Option Ref) {G : List Frame} {v v' : Value}
      {B B' : List Suspended} (h : Alike ⟨G, v, B⟩ ⟨G, v', B'⟩) :
      Alike ⟨F, u, ⟨G, v, d⟩ :: B⟩ ⟨F, u, ⟨G, v', d⟩ :: B'⟩

section

variable {F G : List Frame} {v v' : Value} {B B' : List Suspended}

theorem Alike.frames (h : Alike ⟨F, v, B⟩ ⟨F, v', B'⟩) (G : List Frame) :
    Alike ⟨G, v, B⟩ ⟨G, v', B'⟩ := by
  cases h with
  | lowest => exact .lowest G v v'
  | upper _ _ d h => exact .upper G _ d h

theorem Alike.result (h : Alike ⟨F, v, B⟩ ⟨F, v', B'⟩) (u : Value) :
    Alike ⟨F, u, B⟩ ⟨F, u, B'⟩ := by
  cases h with
  | lowest => exact .lowest F u u
  | upper _ _ d h => exact .upper F u d h

theorem Alike.deliver (h : Alike ⟨F, v, B⟩ ⟨F, v', B'⟩) {d : Option Ref} {u : Value} {s s' : Store}
    {m : Machine} (hm : (Machine.deliver ⟨F, v, B⟩ d u).run s = .ok m s') :
    ∃ m', (Machine.deliver ⟨F, v', B'⟩ d u).run s = .ok m' s' ∧ Alike m m' := by
  cases d with
  | none =>
      obtain ⟨rfl, rfl⟩ := EStateM.Result.ok.inj hm
      exact ⟨_, rfl, h.result u⟩
  | some c =>
      obtain ⟨rfl, rfl⟩ := EStateM.Result.ok.inj hm
      exact ⟨_, rfl, h⟩

theorem Alike.advance (h : Alike ⟨F, v, B⟩ ⟨F, v', B'⟩) {d : Option Ref} {t : Frame.Transition}
    {s s' : Store} {m : Machine} (hm : (Machine.advance ⟨F, v, B⟩ d t).run s = .ok m s') :
    ∃ m', (Machine.advance ⟨F, v', B'⟩ d t).run s = .ok m' s' ∧ Alike m m' := by
  cases t with
  | value u => exact h.deliver hm
  | suspend g above =>
      obtain ⟨rfl, rfl⟩ := EStateM.Result.ok.inj hm
      exact ⟨_, rfl, h.frames _⟩
  | replace frames =>
      obtain ⟨rfl, rfl⟩ := EStateM.Result.ok.inj hm
      exact ⟨_, rfl, h.frames _⟩
  | call procedure args =>
      obtain ⟨form, s₁, hform, hm⟩ := Eval.run_bind_eq_ok.1 hm
      obtain ⟨root, s₂, hroot, hm⟩ := Eval.run_bind_eq_ok.1 hm
      obtain ⟨inner, s₃, hinner, hm⟩ := Eval.run_bind_eq_ok.1 hm
      obtain ⟨rfl, rfl⟩ := EStateM.Result.ok.inj hm
      refine ⟨{ inner with suspended := ⟨F, v', d⟩ :: B' }, ?_,
        .upper inner.frames inner.result d h⟩
      rw [Machine.advance, Eval.run_bind_ok hform, Eval.run_bind_ok hroot, Eval.run_bind_ok hinner]
      rfl

end

/-- The result so far plays no part in a step. -/
theorem Alike.next {m m' : Machine} (h : Alike m m') {s : Store} {c : Machine × Store}
    (hnext : Next limit (m, s) c) : ∃ c', Next limit (m', s) c' ∧ Alike c.1 c'.1 ∧ c'.2 = c.2 := by
  obtain ⟨frames, v, B⟩ := m
  obtain ⟨frames', v', B'⟩ := m'
  obtain rfl : frames = frames' := by cases h <;> rfl
  cases frames with
  | cons f F =>
      obtain ⟨t, s₁, ht, hadvance⟩ := next_cons_iff.1 hnext
      obtain ⟨m', hm', halike⟩ := (h.frames F).advance hadvance
      exact ⟨(m', c.2), next_cons_iff.2 ⟨t, s₁, ht, hm'⟩, halike, rfl⟩
  | nil =>
      cases h with
      | lowest => simp [Next, step] at hnext
      | upper _ _ d h =>
          obtain ⟨m', hm', halike⟩ := h.deliver (next_nil_iff.1 hnext)
          exact ⟨(m', c.2), next_nil_iff.2 hm', halike, rfl⟩

theorem Alike.reaches {m m' : Machine} (h : Alike m m') {s : Store} {c : Machine × Store}
    (hreach : Reaches limit (m, s) c) :
    ∃ c', Reaches limit (m', s) c' ∧ Alike c.1 c'.1 ∧ c'.2 = c.2 := by
  induction hreach with
  | refl => exact ⟨(m', s), .refl _, h, rfl⟩
  | @tail c₁ c₂ _ hnext ih =>
      obtain ⟨⟨m₁, s₁⟩, hreach, halike, rfl⟩ := ih
      obtain ⟨c', hnext', halike', hstore⟩ := halike.next hnext
      exact ⟨c', hreach.trans hnext'.reaches, halike', hstore⟩

theorem Done.result {F : List Frame} {v w : Value} {s s' : Store} (h : Done limit F v s w s')
    (v' : Value) : ∃ w', Done limit F v' s w' s' := by
  obtain ⟨⟨m', _⟩, hreach, halike, rfl⟩ := (Alike.lowest F v v').reaches h
  cases halike with
  | lowest _ _ w' => exact ⟨w', hreach⟩

/-! ### Pairs that are held -/

section

variable {N : Nat} {W : Ref → Prop} {w : Ownership} {s : Store}

/-- What a program changes with `set-car!` or `set-cdr!` is shared. -/
theorem shared_of_applies {f : Frame} {p : Native} {args : List Value} {r : Ref} (hw : w.Holds N s)
    (hf : f.Owned N W w) (happlies : f.Applies s p args) (htarget : p.target? args = some r) :
    w.shared .pair r r := by
  obtain ⟨form, hexpr, hlist, -, -, rfl⟩ := happlies
  obtain ⟨v, hargs, -⟩ := Native.run_call_of_target? htarget
  obtain ⟨cs, hspine, -⟩ := hw.spine hf.expr hlist
  rw [hexpr] at hspine
  cases cs with
  | nil => exact absurd hspine.list.1.1 (by simp)
  | cons c cs =>
      obtain ⟨⟨⟩, -⟩ := hspine.list.1
      have hmem : Value.pair r ∈ s.elements (s.cdr form) := by simp [hargs]
      rw [hspine.tail.list.elements_eq] at hmem
      obtain ⟨c, hc, hcar⟩ := List.mem_map.1 hmem
      have hshared := hw.cell_car (hspine.tail.cell hc)
      rw [hcar] at hshared
      cases hshared with
      | pair hr => exact hr

/-- The pairs that may change while a frame runs whose value goes to `c`: no other pair is held. -/
def Open (w : Ownership) (c r : Ref) : Prop := r = c ∨ ∀ v, ¬ w.held r v

theorem open_eq {w' : Ownership} (hle : w.Le w') : Open w' = Open w := by
  funext c r
  rw [Open, Open, hle.held]

/-- What holds all along a run whose value goes to `c`. -/
def Secluded (N : Nat) (w : Ownership) (s : Store) (c : Ref) (x : Machine × Store) : Prop :=
  ∃ w', w.Le w' ∧ w'.Holds N x.2 ∧ x.1.Owned N (Open w c) w' ∧ s.Spares N (Open w c) x.2

/-- What is shared is not held. -/
theorem open_of_shared {w' : Ownership} {c r : Ref} (hle : w.Le w') (hw' : w'.Holds N s)
    (hr : w'.shared .pair r r) : Open w c r := by
  refine .inr fun v hv => ?_
  rw [← hle.held] at hv
  exact (hw'.held hv).2.1 hr

/-- A list that is not owned is one of the program. -/
theorem open_of_mem_cells {w' : Ownership} {c : Ref} {f : Frame} (hle : w.Le w') (hw' : w'.Holds N s)
    (hf : f.Owned N W w') (hlist : s.isList f.expr = true) (hown : ¬ w'.Owned f.expr) :
    ∀ r ∈ s.cells f.expr, Open w c r := by
  obtain ⟨cs, hchain⟩ := Store.isList_iff.1 hlist
  have hcells : ∀ q ∈ cs, w'.shared .pair q q := hw'.chain_shared (hf.expr.resolve_left hown) hchain
  have hlistAt : s.ListAt f.expr cs := ⟨hchain, fun q hq => hw'.cell_lt (.inr (hcells q hq))⟩
  intro r hr
  rw [hlistAt.cells_eq] at hr
  exact open_of_shared hle hw' (hcells r hr)

theorem Secluded.next {c : Ref} {x y : Machine × Store} (h : Secluded N w s c x)
    (hnext : Next limit x y) : Secluded N w s c y := by
  obtain ⟨w', hle, hw', hm, hspares⟩ := h
  have hmutates : ∀ r, Mutates (x.1, x.2) r → Open w c r := by
    rintro r ⟨f, rest, p, args, hframes, happlies, htarget⟩
    have hf : f ∈ x.1.frames := by rw [hframes]; simp
    exact open_of_shared hle hw' (shared_of_applies hw' (hm.frames f (by simp [all, hf])) happlies htarget)
  have hguard : Guarded N (Open w c) w' x.2 (x.1.step limit) _ :=
    step_guarded hw' hm hmutates fun f rest hframes =>
      open_of_mem_cells hle hw' (hm.frames f (by simp [all, hframes]))
  rw [Guarded, show (x.1.step limit).run x.2 = _ from hnext] at hguard
  obtain ⟨w'', hle', hw'', hspares', hafter⟩ := hguard
  exact ⟨w'', hle.trans hle', hw'', (hafter y.1 rfl).1, hspares.trans hspares'⟩

theorem Secluded.reaches {c : Ref} {x y : Machine × Store} (h : Secluded N w s c x)
    (hreach : Reaches limit x y) : Secluded N w s c y := by
  induction hreach with
  | refl => exact h
  | tail _ hnext ih => exact ih.next hnext

/-- A frame that runs to its end leaves the held pairs alone, but for the one its value goes to. -/
theorem Done.spares {f : Frame} {c : Ref} {x : Value} {s' : Store} (hw : w.Holds N s)
    (hf : f.Owned N (Open w c) w) (h : Done limit [f] .void s x s') :
    ∃ w', w.Le w' ∧ w'.Holds N s' ∧ s.Spares N (Open w c) s' := by
  have hstart : Secluded N w s c (⟨[f], .void, []⟩, s) := by
    refine ⟨w, .refl w, hw, ⟨fun g hg => ?_, .void, by simp⟩, .refl s⟩
    obtain rfl := List.mem_singleton.1 hg
    exact hf
  obtain ⟨w', hle, hw', -, hspares⟩ := hstart.reaches h
  exact ⟨w', hle, hw', hspares⟩

end

/-! ### Operands -/

/-- The expression in a pair of an application, with a frame if it has to be evaluated. -/
def prepare (scope cell : Ref) : Eval (Ref × Option Frame) := do
  if ← Eval.ask fun s => Frame.needsEvaluation s (s.car cell) then
    return (cell, some (← Frame.forCell scope cell))
  else return (cell, none)

/-- The value of an operand: what stands in its pair when its frame, if it has one, is done. -/
def settle (limit fuel : Nat) : Ref × Option Frame → Eval Value
  | (cell, none) => Eval.ask fun s => s.car cell
  | (cell, some f) => do
      let _ ← run limit fuel { frames := [f] }
      Eval.ask fun s => s.car cell

/-- The values of the operator and the operands of an application, from left to right. All frames
are made before the first of them runs. -/
def evalOperands (limit fuel : Nat) (form : Value) (scope : Ref) : Eval (List Value) := do
  let copy ← Eval.make fun s => s.copySpine form
  let operands ← (← Eval.ask fun s => s.cells copy).mapM (prepare scope)
  operands.mapM (settle limit fuel)

section

variable {N : Nat} {w : Ownership} {s : Store}

/-- Frames with the operands run to their end, and the values stay where they are. -/
theorem settle_done {n : Nat} {operands : List (Ref × Option Frame)} {vs : List Value} {s' : Store}
    (hw : w.Holds N s) (hheld : ∀ p ∈ operands, ∃ v, w.held p.1 v)
    (hnodup : (operands.map Prod.fst).Nodup)
    (hframes : ∀ p ∈ operands, ∀ f, p.2 = some f → f.Owned N (Open w p.1) w)
    (h : (operands.mapM (settle limit n)).run s = .ok vs s') (x : Value) :
    (∃ y, Done limit (operands.filterMap Prod.snd) x s y s') ∧
      (operands.map fun p => s'.car p.1) = vs ∧ s'.pairs.size ≥ N ∧
      ∀ r v, w.held r v → s'.cdr r = v ∧ (r ∉ operands.map Prod.fst → s'.car r = s.car r) := by
  induction operands generalizing w s x vs with
  | nil =>
      obtain ⟨rfl, rfl⟩ := EStateM.Result.ok.inj h
      exact ⟨⟨x, .refl _⟩, rfl, hw.size, fun r v hr => ⟨(hw.held hr).2.2, fun _ => rfl⟩⟩
  | cons p operands ih =>
      rw [List.mapM_cons] at h
      obtain ⟨v, s₁, hv, h⟩ := Eval.run_bind_eq_ok.1 h
      obtain ⟨vs', s₂, hvs, h⟩ := Eval.run_bind_eq_ok.1 h
      obtain ⟨rfl, rfl⟩ := EStateM.Result.ok.inj h
      rw [List.map_cons, List.nodup_cons] at hnodup
      obtain ⟨hp, hrestNodup⟩ := hnodup
      obtain ⟨rest, hrest⟩ := hheld p (by simp)
      obtain ⟨c, frame⟩ := p
      cases frame with
      | none =>
          obtain ⟨rfl, rfl⟩ := EStateM.Result.ok.inj hv
          obtain ⟨hdone, hvalues, hsize, hsame⟩ := ih hw (fun p hp => hheld p (by simp [hp]))
            hrestNodup (fun p hp => hframes p (by simp [hp])) hvs x
          refine ⟨hdone, ?_, hsize, fun r v hr => ⟨(hsame r v hr).1, fun hmem => ?_⟩⟩
          · rw [List.map_cons, hvalues, (hsame c rest hrest).2 hp]
          · exact (hsame r v hr).2 (by simp_all)
      | some f =>
          obtain ⟨y, s₃, hrun, hv⟩ := Eval.run_bind_eq_ok.1 hv
          obtain ⟨rfl, rfl⟩ := EStateM.Result.ok.inj hv
          have hdone₁ : Done limit [f] .void s y s₃ := reaches_of_run hrun
          obtain ⟨w', hle, hw', hspares⟩ := hdone₁.spares hw (hframes (c, some f) (by simp) f rfl)
          obtain ⟨z, hdone₁⟩ := hdone₁.result x
          obtain ⟨⟨z', hdone⟩, hvalues, hsize, hsame⟩ := ih hw'
            (fun p hp => by rw [hle.held]; exact hheld p (by simp [hp])) hrestNodup
            (fun p hp g hg => by
              rw [open_eq hle]
              exact (hframes p (by simp [hp]) g hg).mono hle fun _ h => h) hvs z
          rw [hle.held] at hsame
          refine ⟨⟨z', (hdone₁.reaches _ []).trans hdone⟩, ?_, hsize, fun r v hr =>
            ⟨(hsame r v hr).1, fun hmem => ?_⟩⟩
          · rw [List.map_cons, hvalues, (hsame c rest hrest).2 hp]
          · rw [(hsame r v hr).2 (by simp_all)]
            refine Store.car_eq_of_pair_eq (hspares r (hw.held hr).1 ?_)
            rintro (rfl | hnot)
            · simp at hmem
            · exact hnot v hr

/-- The frames that are made for operands do not change which of them have to be evaluated. -/
theorem needsEvaluation_eq {s' : Store} {v : Value} (hw : w.Holds N s) (hkeeps : s.Keeps s')
    (hconsole : s'.console = s.console) (hv : w.Shared v) :
    Frame.needsEvaluation s' v = Frame.needsEvaluation s v := by
  cases v with
  | pair r => exact ((hw.similar_keeps hkeeps hconsole).isList_eq hv).symm
  | _ => rfl

theorem run_prepare (scope : Ref) (cells : List Ref) (hw : w.Holds N s)
    (hscope : w.shared .scope scope scope) (hcells : ∀ c ∈ cells, c < N ∧ w.Shared (s.car c)) :
    ∃ operands s' w', (cells.mapM (prepare scope)).run s = .ok operands s' ∧
      ((cells.filter fun c => Frame.needsEvaluation s (s.car c)).mapM (Frame.forCell scope)).run s =
        .ok (operands.filterMap Prod.snd) s' ∧
      w.Le w' ∧ w'.Holds N s' ∧ s.Keeps s' ∧ operands.map Prod.fst = cells ∧
      ∀ p ∈ operands, ∀ f, p.2 = some f → f.Owned N (Open w p.1) w' := by
  induction cells generalizing w s with
  | nil => exact ⟨[], s, w, rfl, rfl, .refl w, hw, .refl s, rfl, by simp⟩
  | cons c cells ih =>
      obtain ⟨hc, hcar⟩ := hcells c (by simp)
      cases hneeds : Frame.needsEvaluation s (s.car c) with
      | false =>
          have hfirst : (prepare scope c).run s = .ok (c, none) s := by
            simp [prepare, hneeds]
          obtain ⟨operands, s', w', hrun, hforCell, hle, hw', hkeeps, hfst, hframes⟩ :=
            ih hw hscope fun d hd => hcells d (by simp [hd])
          refine ⟨(c, none) :: operands, s', w', ?_, ?_, hle, hw', hkeeps, by simp [hfst], ?_⟩
          · rw [List.mapM_cons, Eval.run_bind_ok hfirst, Eval.run_bind_ok hrun]
            rfl
          · rw [List.filter_cons_of_neg (by simp [hneeds]), hforCell]
            rfl
          · simpa using hframes
      | true =>
          obtain ⟨w₁, hle₁, hw₁, hfresh, hkeeps₁, hconsole⟩ := hw.copySpine hcar
          generalize hs₁ : (s.copySpine (s.car c)).2 = s₁ at hw₁ hfresh hkeeps₁ hconsole
          generalize hexpr : (s.copySpine (s.car c)).1 = expr at hfresh
          have hnew : (Frame.forCell scope c).run s = .ok (Frame.fresh scope (some c) expr) s₁ := by
            rw [Frame.forCell, Eval.run_ask_bind, Frame.run_new, hs₁, hexpr]
          have hfirst : (prepare scope c).run s =
              .ok (c, some (Frame.fresh scope (some c) expr)) s₁ := by
            simp only [prepare, Eval.run_ask_bind, hneeds, if_true]
            rw [Eval.run_bind_ok hnew]
            rfl
          have hsame : ∀ d ∈ cells, s₁.car d = s.car d := fun d hd =>
            Store.car_eq_of_pair_eq (hkeeps₁.same .pair d
              (Nat.lt_of_lt_of_le (hcells d (by simp [hd])).1 hw.size))
          obtain ⟨operands, s', w', hrun, hforCell, hle, hw', hkeeps, hfst, hframes⟩ :=
            ih hw₁ (hle₁.shared hscope) fun d hd => by
              rw [hsame d hd]
              exact (hcells d (by simp [hd])).imp_right (·.mono hle₁)
          have hfilter : (cells.filter fun d => Frame.needsEvaluation s₁ (s₁.car d)) =
              cells.filter fun d => Frame.needsEvaluation s (s.car d) :=
            List.filter_congr fun d hd => by
              rw [hsame d hd]
              exact needsEvaluation_eq hw hkeeps₁ hconsole (hcells d (by simp [hd])).2
          refine ⟨(c, some (Frame.fresh scope (some c) expr)) :: operands, s', w', ?_, ?_,
            hle₁.trans hle, hw', hkeeps₁.trans hkeeps, by simp [hfst], ?_⟩
          · rw [List.mapM_cons, Eval.run_bind_ok hfirst, Eval.run_bind_ok hrun]
            rfl
          · rw [List.filter_cons_of_pos (by simpa using hneeds), List.mapM_cons,
              Eval.run_bind_ok hnew, ← hfilter, Eval.run_bind_ok hforCell]
            rfl
          · rw [open_eq hle₁] at hframes
            intro p hp f hf
            rcases List.mem_cons.1 hp with rfl | hp
            · obtain rfl := Option.some.inj hf
              refine ⟨hle.shared (hle₁.shared hscope), hfresh.code.mono hle, ?_⟩
              rintro _ ⟨⟩
              exact .inr (.inl rfl)
            · exact hframes p hp f hf

end

/-! ### The call -/

/-- The pairs of a copy of a form, held for the frame that works with them. -/
def holding (s s₁ : Store) : Ownership where
  shared := .identity s
  own _ := False
  held r v := s.pairs.size ≤ r ∧ r < s₁.pairs.size ∧ s₁.cdr r = v

theorem holding_holds {s : Store} (hs : s.Sound) (items : List Value) :
    (holding s (s.list items).2).Holds (s.list items).2.pairs.size (s.list items).2 := by
  have hkeeps : s.Keeps (s.list items).2 := s.keeps_listWithTail items .nil
  refine ⟨?_, fun _ _ _ hr => hr.1, Nat.le_refl _, fun _ hr => hr.elim, fun _ hr => hr.elim,
    fun _ hr => hr.elim, fun _ hr => hr.elim, fun _ hr => hr.elim, fun a ha => .inr ?_,
    fun r v hr => ⟨hr.2.1, fun hshared => Nat.not_lt.2 hr.1 hshared.2, hr.2.2⟩⟩
  · exact hs.similar.congr (fun k a _ hr => hkeeps.same k a hr.2)
      (fun k _ b hr => hkeeps.same k b (hr.1 ▸ hr.2)) hkeeps.count hkeeps.count rfl
  · have hclosure : (s.list items).2.closure a = s.closure a := hkeeps.same .closure a ha.2
    rw [hclosure]
    exact (hs.closure a ha.2).1.related

/-- The copy of a form is a list in pairs that are held. -/
theorem exists_copy {s : Store} {form : Ref} (hs : s.Sound) (hform : form < s.pairs.size)
    (hlist : s.isList (.pair form) = true) :
    ∃ copy cs s₁, s.copySpine (.pair form) = (.pair copy, s₁) ∧
      s₁.ListAt (.pair copy) (copy :: cs) ∧ s₁.car copy = s.car form ∧
      (holding s s₁).Holds s₁.pairs.size s₁ ∧
      ∀ c ∈ copy :: cs, (holding s s₁).held c (s₁.cdr c) ∧ (holding s s₁).Shared (s₁.car c) := by
  have hw := Ownership.start_holds hs
  obtain ⟨ds, hspine, -⟩ := hw.spine (v := .pair form) (.inr (Value.Within.related hform)) hlist
  cases ds with
  | nil => exact absurd hspine.list.1.1 (by simp)
  | cons d ds =>
      obtain ⟨⟨⟩, -⟩ := hspine.list.1
      have hcopy : s.copySpine (.pair form) = s.list ((form :: ds).map s.car) := by
        rw [Store.copySpine, hspine.list.elements?_eq]
      have hlistAt := Store.listAt_list (s := s) ((form :: ds).map s.car)
      have hcars := Store.map_car_list (s := s) ((form :: ds).map s.car)
      have hfst : (s.list ((form :: ds).map s.car)).1 =
          .pair (s.pairs.size + (ds.map s.car).length) := Store.fst_listWithTail_cons _ _ _
      rw [hfst] at hlistAt
      refine ⟨s.pairs.size + (ds.map s.car).length,
        Store.newCells s.pairs.size (ds.map s.car).length, (s.list ((form :: ds).map s.car)).2, ?_,
        hlistAt, ?_, holding_holds hs _, fun c hc => ⟨?_, ?_⟩⟩
      · rw [hcopy, ← hfst]
      · exact (List.cons.inj hcars).1
      · have hnew : s.pairs.size ≤ c := (Store.mem_newCells (k := (ds.map s.car).length + 1).1 hc).1
        exact ⟨hnew, hlistAt.2 c hc, rfl⟩
      · have hmem := List.mem_map_of_mem (f := (s.list ((form :: ds).map s.car)).2.car) hc
        obtain ⟨q, hq, hcar⟩ := List.mem_map.1 (hcars ▸ hmem)
        rw [← hcar]
        exact hw.cell_car (hspine.cell hq)

theorem Done.nil {v w : Value} {s s' : Store} (h : Done limit [] v s w s') : w = v ∧ s' = s := by
  rcases Relation.ReflTransGen.cases_head h with heq | ⟨c, hnext, -⟩
  · cases heq
    exact ⟨rfl, rfl⟩
  · simp [Next, step] at hnext

/-- When the operator and the operands of an application have values, the machine comes to the call:
one frame with the values in a copy of the form, and nothing else has happened. -/
theorem reaches_call {n : Nat} {s s' : Store} {form scope : Ref} {vs : List Value} (hs : s.Sound)
    (hform : form < s.pairs.size) (hlist : s.isList (.pair form) = true)
    (hhead : ∀ k, s.car form ≠ .keyword k) (hscope : scope < s.scopes.size)
    (h : (evalOperands limit n (.pair form) scope).run s = .ok vs s') :
    ∃ m s₁ f r x cs, (start (.pair form) scope).run s = .ok m s₁ ∧
      Reaches limit (m, s₁) (⟨[f], x, []⟩, s') ∧ f.expr = .pair r ∧ f.scope = scope ∧
      s'.ListAt (.pair r) (r :: cs) ∧ (r :: cs).map s'.car = vs ∧ Frame.pendingCells s' f = [] := by
  obtain ⟨copy, cs, s₁, hcopy, hlistAt, hcar, hw, hcells⟩ := exists_copy hs hform hlist
  obtain ⟨operands, s₂, w, hprepare, hforCell, hle, hw₂, hkeeps, hfst, hframes⟩ :=
    run_prepare scope (copy :: cs) hw ⟨rfl, hscope⟩ fun c hc =>
      ⟨hlistAt.2 c hc, (hcells c hc).2⟩
  have hsettle : (operands.mapM (settle limit n)).run s₂ = .ok vs s' := by
    rw [evalOperands, Eval.run_make_bind, hcopy, Eval.run_ask_bind, hlistAt.cells_eq,
      Eval.run_bind_ok hprepare] at h
    exact h
  have hmem : ∀ p ∈ operands, p.1 ∈ copy :: cs := fun p hp => hfst ▸ List.mem_map_of_mem hp
  obtain ⟨⟨x, hdone⟩, hvalues, hsize, hsame⟩ := settle_done hw₂
    (fun p hp => ⟨_, by rw [hle.held]; exact (hcells p.1 (hmem p hp)).1⟩)
    (by rw [hfst]; exact hlistAt.1.nodup)
    (fun p hp f hf => by rw [open_eq hle]; exact hframes p hp f hf) hsettle .void
  rw [hle.held] at hsame
  have hlistAt' : s'.ListAt (.pair copy) (copy :: cs) :=
    hlistAt.congr (fun c hc => (hsame c _ (hcells c hc).1).1) hsize
  have hvs : (copy :: cs).map s'.car = vs := by
    rw [← hfst, List.map_map]
    exact hvalues
  have hpending : Frame.pendingCells s₁ (.fresh scope none (.pair copy)) =
      (copy :: cs).filter fun c => Frame.needsEvaluation s₁ (s₁.car c) := by
    rw [← hlistAt.cells_eq]
    rfl
  have hstep : (Frame.fresh scope none (.pair copy)).step.run s₁ =
      (Frame.stepApplication (.fresh scope none (.pair copy)) copy).run s₁ := by
    rw [IsForm.run_step ⟨rfl, hlistAt.isList, rfl⟩, hcar, stepHead_eq_application hhead]
  have hstart : (start (.pair form) scope).run s =
      .ok { frames := [.fresh scope none (.pair copy)] } s₁ := by
    rw [start, Eval.run_bind_ok (Frame.run_new _ _ _ _), hcopy]
    rfl
  cases hframesEq : (copy :: cs).filter fun c => Frame.needsEvaluation s₁ (s₁.car c) with
  | nil =>
      rw [hframesEq] at hforCell hpending
      obtain ⟨hnone, rfl⟩ := EStateM.Result.ok.inj hforCell
      rw [← hnone] at hdone
      obtain ⟨rfl, rfl⟩ := hdone.nil
      exact ⟨_, _, _, copy, _, cs, hstart, .refl _, rfl, rfl, hlistAt', hvs, hpending⟩
  | cons c cells =>
      rw [hframesEq] at hpending hforCell
      have hsuspend : (Frame.fresh scope none (.pair copy)).step.run s₁ = .ok (.suspend
          ⟨.pair copy, scope, true, none⟩ (operands.filterMap Prod.snd)) s₂ := by
        rw [hstep, Frame.stepApplication, Eval.run_ask_bind, hpending]
        exact Eval.run_bind_ok hforCell
      refine ⟨_, _, ⟨.pair copy, scope, true, none⟩, copy, x, cs, hstart, ?_, rfl, rfl, hlistAt',
        hvs, rfl⟩
      exact (next_suspend (R := []) hsuspend).reaches.trans (hdone.reaches [_] [])

/-- A call of what is neither a procedure nor a keyword fails, with the store as it is. -/
theorem step_notProcedure {f : Frame} {r : Ref} {x v : Value} {cs : List Ref} {s : Store}
    (hf : f.expr = .pair r) (hlist : s.ListAt (.pair r) (r :: cs)) (hv : s.car r = v)
    (hpending : Frame.pendingCells s f = []) (hprocedure : v.isProcedure = false)
    (hkeyword : ∀ k, v ≠ .keyword k) :
    (step limit ⟨[f], x, []⟩).run s =
      .error (.error (.failed (.notProcedure (s.written v)) (trace s limit [f]))) s := by
  have hcall : (Frame.stepCall f r).run s =
      .error (.error (.failed (.notProcedure (s.written v)) .none)) s := by
    unfold Frame.stepCall
    rw [Eval.run_ask_bind, Eval.run_ask_bind]
    simp only [hv]
    cases v with
    | native p => simp [Value.isProcedure] at hprocedure
    | closure c => simp [Value.isProcedure] at hprocedure
    | _ => rfl
  have hstep : f.step.run s = .error (.error (.failed (.notProcedure (s.written v)) .none)) s := by
    rw [IsForm.run_step ⟨hf, by rw [hf]; exact hlist.isList, hv⟩, stepHead_eq_application hkeyword,
      run_stepApplication_call hpending, hcall]
  exact Eval.run_bind_error (run_traced_error [f] hstep)

end Machine

/-- The operator and the operands of an application have values, and that of the operator is no
procedure. -/
theorem Direct.run_eval_notProcedure {n : Nat} {s s₁ s' : Store} {form scope : Ref} {v : Value}
    {args : List Value} (hlist : s.isList (.pair form) = true)
    (hhead : ∀ k, s.car form ≠ .keyword k)
    (hv : (Direct.eval n (s.car form) scope).run s = .ok v s₁)
    (hargs : (Direct.evalEach n (s.cdr form) scope).run s₁ = .ok args s')
    (hprocedure : v.isProcedure = false) :
    (Direct.eval (n + 2) (.pair form) scope).run s =
      .error (.error (.failed (.notProcedure (s'.written v)) .none)) s' := by
  have happly : (Direct.apply n v args).run s' =
      .error (.error (.failed (.notProcedure (s'.written v)) .none)) s' := by
    cases n with
    | zero => simp [Direct.eval] at hv
    | succ n =>
        unfold Direct.apply
        cases v with
        | native p => simp [Value.isProcedure] at hprocedure
        | closure c => simp [Value.isProcedure] at hprocedure
        | _ => rfl
  unfold Direct.eval
  rw [Eval.run_ask_bind]
  simp only [hlist, if_true]
  unfold Direct.evalForm
  rw [Eval.run_ask_bind, Eval.run_ask_bind]
  generalize s.car form = operator at hhead hv
  cases operator with
  | keyword k => exact absurd rfl (hhead k)
  | _ => exact (Eval.run_bind_ok hv).trans ((Eval.run_bind_ok hargs).trans happly)

namespace Evaluator

open Machine (evalOperands)

end Evaluator
end LittleScheme

import LittleScheme.Direct
import LittleScheme.Proofs.Operands
import LittleScheme.Proofs.TailCalls

/-!
# Forms with quoted operands

In the form of a procedure and quoted values the operands have the values that are quoted, and the
form comes to the call of the procedure with those very values. By recursion this takes no change of
the store. The stack machine makes pairs on the way, and writes to none but these.
-/
namespace LittleScheme

/-! ### Stores with more pairs and scopes -/

namespace Store

/-- There are more pairs and scopes, and all else is as it was. -/
structure GrowsTo (s t : Store) : Prop where
  keeps : s.Keeps t
  rest : { t with pairs := s.pairs, scopes := s.scopes } = s

namespace GrowsTo

variable {s t u : Store}

theorem refl (s : Store) : s.GrowsTo s := ⟨.refl s, rfl⟩

theorem trans (h : s.GrowsTo t) (h' : t.GrowsTo u) : s.GrowsTo u where
  keeps := h.keeps.trans h'.keeps
  rest := by
    have hrest : { ({ u with pairs := t.pairs, scopes := t.scopes } : Store) with
      pairs := s.pairs, scopes := s.scopes } = s := by rw [h'.rest, h.rest]
    exact hrest

theorem list (s : Store) (items : List Value) : s.GrowsTo (s.list items).2 where
  keeps := s.keeps_listWithTail items .nil
  rest := by rw [Store.list, listWithTail_eq]

theorem pushScope (s : Store) (c : Scope) : s.GrowsTo (s.pushScope c) := ⟨s.keeps_pushScope c, rfl⟩

theorem pair_eq (h : s.GrowsTo t) {r : Ref} (hr : r < s.pairs.size) : t.pair r = s.pair r :=
  h.keeps.same .pair r hr

theorem size_le (h : s.GrowsTo t) : s.pairs.size ≤ t.pairs.size := h.keeps.count .pair

theorem console_eq (h : s.GrowsTo t) : t.console = s.console := by
  have hconsole := congrArg Store.console h.rest
  exact hconsole

/-- A pair that is new may be changed. -/
theorem setCar (h : s.GrowsTo t) {r : Ref} (hr : s.pairs.size ≤ r) (v : Value) :
    s.GrowsTo (t.setCar r v) := by
  refine ⟨⟨fun k => ?_, fun k q hq => ?_⟩, h.rest⟩
  · refine Nat.le_trans (h.keeps.count k) ?_
    cases k with
    | pair => exact (size_setCar t r v).ge
    | _ => exact Nat.le_refl _
  · cases k with
    | pair =>
        have hne : q ≠ r := fun heq => Nat.not_lt.2 hr (heq ▸ hq)
        exact (pair_setCar_ne hne v).trans (h.pair_eq hq)
    | string => exact h.keeps.same .string q hq
    | vector => exact h.keeps.same .vector q hq
    | bytes => exact h.keeps.same .bytes q hq
    | closure => exact h.keeps.same .closure q hq
    | port => exact h.keeps.same .port q hq
    | scope => exact h.keeps.same .scope q hq

end GrowsTo

/-! ### Quotations -/

/-- A value quotes another: it is a list of `quote` and that value, in pairs from place `n` on. -/
def Quotes (s : Store) (n : Nat) (v quoted : Value) : Prop :=
  ∃ q q', quoted = .pair q ∧ n ≤ q ∧ n ≤ q' ∧ q < s.pairs.size ∧ q' < s.pairs.size ∧
    s.pair q = ⟨.keyword .quote, .pair q'⟩ ∧ s.pair q' = ⟨v, .nil⟩

namespace Quotes

variable {s t : Store} {n : Nat} {v quoted : Value}

theorem later (h : s.Quotes n v quoted) (hsize : s.pairs.size ≤ t.pairs.size)
    (hsame : ∀ r, n ≤ r → r < s.pairs.size → t.pair r = s.pair r) : t.Quotes n v quoted := by
  obtain ⟨q, q', rfl, hq, hq', hlt, hlt', hpair, hpair'⟩ := h
  exact ⟨q, q', rfl, hq, hq', by lia, by lia, (hsame q hq hlt).trans hpair,
    (hsame q' hq' hlt').trans hpair'⟩

theorem grow (h : s.Quotes n v quoted) (hst : s.GrowsTo t) : t.Quotes n v quoted :=
  h.later hst.size_le fun _ _ hr => hst.pair_eq hr

theorem mono (h : s.Quotes n v quoted) {m : Nat} (hm : m ≤ n) : s.Quotes m v quoted := by
  obtain ⟨q, q', hquoted, hq, hq', h⟩ := h
  exact ⟨q, q', hquoted, by lia, by lia, h⟩

theorem listAt (h : s.Quotes n v quoted) : ∃ q q', quoted = .pair q ∧ s.ListAt quoted [q, q'] ∧
    s.car q = .keyword .quote ∧ s.cdr q = .pair q' ∧ s.car q' = v := by
  obtain ⟨q, q', rfl, -, -, hlt, hlt', hpair, hpair'⟩ := h
  have hcdr : s.cdr q = .pair q' := by rw [cdr, hpair]
  have hcdr' : s.cdr q' = .nil := by rw [cdr, hpair']
  refine ⟨q, q', rfl, ⟨⟨rfl, hcdr, hcdr', rfl⟩, ?_⟩, by rw [car, hpair], hcdr, by rw [car, hpair']⟩
  simp [hlt, hlt']

/-- A copy of a quotation is a quotation of the same value. -/
theorem copySpine_eq (h : s.Quotes n v quoted) :
    s.copySpine quoted = s.list [.keyword .quote, v] := by
  obtain ⟨q, q', rfl, hlist, hquote, -, hv⟩ := h.listAt
  have helements : s.elements? (.pair q) = some [.keyword .quote, v] := by
    rw [hlist.elements?_eq, List.map_cons, List.map_cons, hquote, hv, List.map_nil]
  simp only [copySpine, helements]

end Quotes

theorem quotes_list (s : Store) (v : Value) :
    (s.list [.keyword .quote, v]).2.Quotes s.pairs.size v (s.list [.keyword .quote, v]).1 := by
  have hsize : (s.list [.keyword .quote, v]).2.pairs.size = s.pairs.size + 2 := size_list _
  refine ⟨s.pairs.size + 1, s.pairs.size, fst_listWithTail_cons _ _ _, by lia, by lia, by lia,
    by lia, ?_, ?_⟩
  · have hlast := pair_pushPair_self (s.pushPair v .nil) (.keyword .quote) (.pair s.pairs.size)
    rwa [size_pushPair] at hlast
  · exact (pair_pushPair_of_lt _ _ _ (by rw [size_pushPair]; lia)).trans
      (pair_pushPair_self s v .nil)

theorem quoteAll_cons (s : Store) (v : Value) (args : List Value) :
    s.quoteAll (v :: args) = ((s.list [.keyword .quote, v]).1 ::
      ((s.list [.keyword .quote, v]).2.quoteAll args).1,
      ((s.list [.keyword .quote, v]).2.quoteAll args).2) := rfl

theorem growsTo_quoteAll (s : Store) (args : List Value) : s.GrowsTo (s.quoteAll args).2 := by
  induction args generalizing s with
  | nil => exact .refl s
  | cons v args ih =>
      rw [quoteAll_cons]
      exact (GrowsTo.list s _).trans (ih _)

theorem quotes_quoteAll (s : Store) (args : List Value) :
    List.Forall₂ ((s.quoteAll args).2.Quotes s.pairs.size) args (s.quoteAll args).1 := by
  induction args generalizing s with
  | nil => exact .nil
  | cons v args ih =>
      rw [quoteAll_cons]
      refine .cons ((quotes_list s v).grow (growsTo_quoteAll _ args)) ?_
      refine (ih _).imp fun x quoted h => h.mono ?_
      exact (GrowsTo.list s _).size_le

end Store

/-- The form for a call, and the scope in which it is evaluated: a list of the procedure and quotations
of the arguments, in new pairs, and a new scope. -/
theorem Eval.exists_callForm (s : Store) (procedure : Value) (args : List Value) :
    ∃ s₁ t form cs scope n, (callForm procedure args).run s = .ok (.pair form) s₁ ∧
      newRoot.run s₁ = .ok scope t ∧ s.GrowsTo t ∧ t.ListAt (.pair form) (form :: cs) ∧
      t.car form = procedure ∧ List.Forall₂ (t.Quotes n) args (cs.map t.car) := by
  have hquotes := s.quotes_quoteAll args
  have hgrows := s.growsTo_quoteAll args
  have hrun := run_callForm procedure args s
  generalize s.quoteAll args = made at hquotes hgrows hrun
  obtain ⟨quoted, s₁⟩ := made
  have hlist := s₁.listAt_list (procedure :: quoted)
  have hcars := s₁.map_car_list (procedure :: quoted)
  have hgrow := Store.GrowsTo.list s₁ (procedure :: quoted)
  generalize Store.newCells s₁.pairs.size (procedure :: quoted).length = cells at hlist hcars
  generalize s₁.list (procedure :: quoted) = made at hlist hcars hgrow hrun
  obtain ⟨form, s₂⟩ := made
  obtain ⟨c, cs, rfl, hhead, hcars⟩ := List.map_eq_cons_iff.1 hcars
  obtain rfl : form = .pair c := hlist.1.1
  have hscope := Store.GrowsTo.pushScope s₂ {}
  refine ⟨s₂, s₂.pushScope {}, c, cs, s₂.nextScope, s.pairs.size, hrun, rfl,
    (hgrows.trans hgrow).trans hscope, hlist.congr (fun _ _ => rfl) (Nat.le_refl _), hhead, ?_⟩
  have hcars' : cs.map (s₂.pushScope {}).car = quoted := hcars
  rw [hcars']
  exact hquotes.imp fun _ _ h => h.grow (hgrow.trans hscope)

/-! ### The call by recursion -/

namespace Direct

variable {s : Store} {scope : Ref}

theorem run_eval_zero (v : Value) (a : Ref) (s : Store) :
    (eval 0 v a).run s = .error .outOfFuel s := by
  rw [eval]
  rfl

/-- An expression that stands for itself. -/
theorem run_eval_settled {n : Nat} {v : Value} {s : Store}
    (h : Frame.needsEvaluation s v = false) (a : Ref) : (eval (n + 1) v a).run s = .ok v s := by
  cases v with
  | pair r =>
      have hlist : s.isList (.pair r) = false := h
      simp [eval, hlist]
  | symbol name => cases h
  | keyword k => cases h
  | _ => simp [eval]

/-- An expression has a value that any depth but the smallest is enough for, and leaves the store as
it is. -/
def Steady (s : Store) (scope : Ref) (expr v : Value) : Prop :=
  ∀ n, (eval n expr scope).run s = .ok v s ∨ (eval n expr scope).run s = .error .outOfFuel s ∧ n ≤ 1

theorem steady_settled {v : Value} (h : Frame.needsEvaluation s v = false) : Steady s scope v v := by
  intro n
  cases n with
  | zero => exact .inr ⟨run_eval_zero _ _ _, by omega⟩
  | succ n => exact .inl (run_eval_settled h scope)

theorem steady_quoted {m : Nat} {v quoted : Value} (h : s.Quotes m v quoted) :
    Steady s scope quoted v := by
  obtain ⟨q, q', rfl, hlist, hquote, hcdr, rfl⟩ := h.listAt
  intro n
  match n with
  | 0 => exact .inr ⟨run_eval_zero _ _ _, by omega⟩
  | 1 => exact .inr ⟨by simp [eval, evalForm, hlist.isList], by omega⟩
  | n + 2 =>
      refine .inl ?_
      unfold eval
      rw [Eval.run_ask_bind]
      simp only [hlist.isList, if_true]
      unfold evalForm
      rw [Eval.run_ask_bind, Eval.run_ask_bind, hquote]
      exact Form.run_quotation hlist.tail

/-- The elements of a list that are steady have their values, or the depth is not enough for all. -/
theorem run_evalEach_steady {list : Value} {cs : List Ref} {args : List Value}
    (hlist : s.ListAt list cs) (hargs : List.Forall₂ (Steady s scope) (cs.map s.car) args) (n : Nat) :
    (evalEach n list scope).run s = .ok args s ∨
      (evalEach n list scope).run s = .error .outOfFuel s ∧ n ≤ cs.length + 1 := by
  induction n generalizing list cs args with
  | zero => exact .inr ⟨by simp [evalEach], by omega⟩
  | succ n ih =>
      cases cs with
      | nil =>
          obtain rfl : list = .nil := hlist.1.1
          cases hargs
          exact .inl (by simp [evalEach])
      | cons c cs =>
          obtain ⟨v, args, hv, hrest, rfl⟩ := List.forall₂_cons_left_iff.1 hargs
          obtain rfl : list = .pair c := hlist.1.1
          rw [evalEach, Eval.run_ask_bind, Eval.run_ask_bind, List.length_cons]
          rcases hv n with hfirst | ⟨hfirst, hn⟩
          · rw [Eval.run_bind_ok hfirst]
            rcases ih hlist.tail hrest with hok | ⟨herror, hn⟩
            · exact .inl (Eval.run_bind_ok hok)
            · exact .inr ⟨Eval.run_bind_error herror, by omega⟩
          · exact .inr ⟨Eval.run_bind_error hfirst, by omega⟩

/-- The call of the first of some values with the others. -/
def applyFirst (n : Nat) : List Value → Eval Value
  | procedure :: args => apply n procedure args
  | [] => throw .outOfFuel

/-- In an application the operator and the operands are evaluated as the elements of one list. -/
theorem run_evalForm_application {n : Nat} {form : Ref} (hhead : ∀ k, s.car form ≠ .keyword k) :
    (evalForm (n + 1) form scope).run s =
      (evalEach (n + 1) (.pair form) scope >>= applyFirst n).run s := by
  have hparts : (evalForm (n + 1) form scope).run s = (do
      let procedure ← eval n (s.car form) scope
      let args ← evalEach n (s.cdr form) scope
      apply n procedure args : Eval Value).run s := by
    unfold evalForm
    rw [Eval.run_ask_bind, Eval.run_ask_bind]
    generalize s.car form = operator at hhead
    cases operator with
    | keyword k => exact absurd rfl (hhead k)
    | _ => rfl
  rw [hparts, evalEach]
  simp only [bind_assoc, pure_bind, Eval.run_ask_bind, applyFirst]

/-- A form of a procedure and quoted values is the call of the procedure with the values. -/
theorem run_eval_quotedCall {m : Nat} {form : Ref} {cs : List Ref} {procedure : Value}
    {args : List Value} (hprocedure : procedure.isProcedure = true)
    (hlist : s.ListAt (.pair form) (form :: cs)) (hhead : s.car form = procedure)
    (hquoted : List.Forall₂ (s.Quotes m) args (cs.map s.car)) (n : Nat) :
    (∃ k, n = k + 2 ∧ (evalEach (k + 1) (.pair form) scope).run s = .ok (procedure :: args) s ∧
      (eval n (.pair form) scope).run s = (apply k procedure args).run s) ∨
    (eval n (.pair form) scope).run s = .error .outOfFuel s ∧ n ≤ args.length + 3 := by
  have hlength : args.length = cs.length := by rw [hquoted.length_eq, List.length_map]
  match n with
  | 0 => exact .inr ⟨run_eval_zero _ _ _, by omega⟩
  | 1 => exact .inr ⟨by simp [eval, evalForm, hlist.isList], by omega⟩
  | n + 2 =>
      have hkeyword : ∀ k, s.car form ≠ .keyword k := by
        rw [hhead]
        rintro k rfl
        cases hprocedure
      have hself : Frame.needsEvaluation s procedure = false := by
        cases procedure <;> first | rfl | cases hprocedure
      have hsteady : List.Forall₂ (Steady s scope) ((form :: cs).map s.car) (procedure :: args) := by
        rw [List.map_cons, hhead]
        exact .cons (steady_settled hself) (hquoted.flip.imp fun _ _ h => steady_quoted h)
      have heval : (eval (n + 2) (.pair form) scope).run s =
          (evalEach (n + 1) (.pair form) scope >>= applyFirst n).run s := by
        rw [← run_evalForm_application hkeyword, eval, Eval.run_ask_bind]
        simp only [hlist.isList, if_true]
      rcases run_evalEach_steady hlist hsteady (n + 1) with hparts | ⟨hparts, hn⟩
      · exact .inl ⟨n, rfl, hparts, heval.trans (Eval.run_bind_ok hparts)⟩
      · rw [List.length_cons] at hn
        exact .inr ⟨heval.trans (Eval.run_bind_error hparts), by omega⟩

end Direct

/-! ### The call on a stack of frames -/

namespace Frame

variable {f : Frame} {s : Store} {procedure : Value} {args : List Value}

/-- The frames for operands that are quoted values: each holds a new quotation. -/
theorem run_mapM_forCell {n : Nat} {scope : Ref} {cs : List Ref} (hcs : ∀ c ∈ cs, c < s.pairs.size)
    (hquoted : List.Forall₂ (s.Quotes n) args (cs.map s.car)) :
    (cs.mapM (forCell scope)).run s =
      .ok (List.zipWith (fun c => fresh scope (some c)) cs (s.quoteAll args).1)
        (s.quoteAll args).2 := by
  induction cs generalizing s args with
  | nil =>
      obtain rfl : args = [] := by simpa using hquoted
      rfl
  | cons c cs ih =>
      obtain _ | ⟨hv, hrest⟩ := hquoted
      rename_i v args
      have hgrow := Store.GrowsTo.list s [.keyword .quote, v]
      have hnew : (forCell scope c).run s = .ok (fresh scope (some c)
          (s.list [.keyword .quote, v]).1) (s.list [.keyword .quote, v]).2 := by
        rw [forCell, Eval.run_ask_bind, run_new, hv.copySpine_eq]
      have hcar : cs.map (s.list [.keyword .quote, v]).2.car = cs.map s.car :=
        List.map_congr_left fun d hd =>
          Store.car_eq_of_pair_eq (hgrow.pair_eq (hcs d (by simp [hd])))
      have hlater : List.Forall₂ ((s.list [.keyword .quote, v]).2.Quotes n) args
          (cs.map (s.list [.keyword .quote, v]).2.car) := by
        rw [hcar]
        exact hrest.imp fun _ _ h => h.grow hgrow
      rw [List.mapM_cons, Eval.run_bind_ok hnew, Eval.run_bind_ok (ih (fun d hd =>
        Nat.lt_of_lt_of_le (hcs d (by simp [hd])) hgrow.size_le) hlater)]
      rfl

/-- An application whose operator and operands are values already. -/
structure Loaded (f : Frame) (s : Store) (procedure : Value) (args : List Value) : Prop where
  form : ∃ r cs, f.expr = .pair r ∧ s.ListAt f.expr (r :: cs) ∧ s.car r = procedure ∧
    cs.map s.car = args
  pending : pendingCells s f = []

/-- What becomes of a frame that has called a native procedure. -/
def Transition.ofReply : Native.Reply → Transition
  | .value v => .value v
  | .call procedure args => .call procedure args

namespace Loaded

/-- A frame with a procedure and its arguments calls it. -/
theorem run_step (h : f.Loaded s procedure args) (hkeyword : ∀ k, procedure ≠ .keyword k) :
    ∃ r, s.car r = procedure ∧ s.elements (s.cdr r) = args ∧
      f.step.run s = (stepCall f r).run s := by
  obtain ⟨⟨r, cs, hf, hlist, hhead, hargs⟩, hpending⟩ := h
  rw [hf] at hlist
  refine ⟨r, hhead, by rw [hlist.tail.elements_eq, hargs], ?_⟩
  rw [Machine.IsForm.run_step ⟨hf, by rw [hf]; exact hlist.isList, hhead⟩,
    Machine.stepHead_eq_application hkeyword, Machine.run_stepApplication_call hpending]

theorem run_step_native {p : Native} (h : f.Loaded s (.native p) args) :
    f.step.run s = (do return Transition.ofReply (← p.call args) : Eval Transition).run s := by
  obtain ⟨r, hhead, hargs, hstep⟩ := h.run_step nofun
  rw [hstep, stepCall, Eval.run_ask_bind, Eval.run_ask_bind, hargs, hhead]
  congr 1
  refine bind_congr fun reply => ?_
  cases reply <;> rfl

theorem run_step_closure {c : Ref} (h : f.Loaded s (.closure c) args) :
    f.step.run s = (do
      let scope ← Eval.enterCall c args
      return .replace (← ofBody (← Eval.ask fun s => (s.closure c).body) scope f.destination) :
        Eval Transition).run s := by
  obtain ⟨r, hhead, hargs, hstep⟩ := h.run_step nofun
  rw [hstep, stepCall, Eval.run_ask_bind, Eval.run_ask_bind, hargs, hhead]

end Loaded
end Frame

namespace Machine

variable {limit : Nat} {s : Store} {scope : Ref} {x : Value} {R : List Frame} {B : List Suspended}

theorem next_quoted {n : Nat} {c : Ref} {v quoted : Value} (h : s.Quotes n v quoted) :
    Next limit (⟨.fresh scope (some c) quoted :: R, x, B⟩, s) (⟨R, x, B⟩, s.setCar c v) := by
  obtain ⟨q, q', rfl, hlist, hquote, hcdr, rfl⟩ := h.listAt
  refine next_cons_iff.2 ⟨.value (s.car q'), s, ?_, rfl⟩
  rw [IsForm.run_step ⟨rfl, hlist.isList, hquote⟩]
  exact Eval.run_bind_ok (Form.run_quotation hlist.tail)

/-- The frames of quoted operands put the values into the pairs of the operands. -/
theorem reaches_quoted (limit : Nat) (scope : Ref) (x : Value) (R : List Frame)
    (B : List Suspended) {n : Nat} {cs : List Ref} {args quoted : List Value}
    (hquoted : List.Forall₂ (s.Quotes n) args quoted) (hlength : cs.length = args.length)
    (hcs : ∀ c ∈ cs, c < n) (hnodup : cs.Nodup) :
    ∃ t, Reaches limit (⟨List.zipWith (fun c => .fresh scope (some c)) cs quoted ++ R, x, B⟩, s)
        (⟨R, x, B⟩, t) ∧
      cs.map t.car = args ∧ (∀ r, t.cdr r = s.cdr r) ∧ (∀ r ∉ cs, t.car r = s.car r) ∧
      t.pairs.size = s.pairs.size ∧
      ∀ u : Store, u.GrowsTo s → (∀ c ∈ cs, u.pairs.size ≤ c) → u.GrowsTo t := by
  induction args generalizing s cs quoted with
  | nil =>
      obtain rfl : cs = [] := List.length_eq_zero_iff.1 hlength
      exact ⟨s, .refl _, rfl, fun _ => rfl, fun _ _ => rfl, rfl, fun u hu _ => hu⟩
  | cons v args ih =>
      obtain _ | ⟨hv, hrest⟩ := hquoted
      obtain ⟨c, cs, rfl⟩ := List.exists_cons_of_length_eq_add_one hlength
      obtain ⟨hc, hcs⟩ := List.forall_mem_cons.1 hcs
      obtain ⟨hfresh, hnodup⟩ := List.nodup_cons.1 hnodup
      -- The quotations left lie above the pair that is written to.
      have hlater : ∀ {v' q}, s.Quotes n v' q → (s.setCar c v).Quotes n v' q := fun h =>
        h.later (Store.size_setCar s c v).ge fun r hr _ => Store.pair_setCar_ne (by lia) v
      obtain ⟨t, hreaches, hcars, hcdrs, hothers, hsize, hgrows⟩ :=
        ih (hrest.imp fun _ _ h => hlater h) (by simpa using hlength) hcs hnodup
      refine ⟨t, (next_quoted hv).reaches.trans hreaches, ?_, ?_, ?_,
        hsize.trans (Store.size_setCar s c v), ?_⟩
      · have hlt : c < s.pairs.size := by
          obtain ⟨q, -, -, hq, -, hlt, -⟩ := hv
          lia
        rw [List.map_cons, hcars, hothers c hfresh, Store.car_setCar hlt]
      · exact fun r => (hcdrs r).trans (Store.cdr_setCar c r v)
      · intro r hr
        rw [List.mem_cons, not_or] at hr
        rw [hothers r hr.2, Store.car_setCar_ne hr.1]
      · intro u hu hge
        obtain ⟨hgec, hge⟩ := List.forall_mem_cons.1 hge
        exact hgrows u (hu.setCar hgec v) hge

theorem pendingCells_quoted {n : Nat} {procedure : Value} {c : Ref} {cs : List Ref}
    {args : List Value} (hprocedure : procedure.isProcedure = true)
    (hlist : s.ListAt (.pair c) (c :: cs)) (hhead : s.car c = procedure)
    (hquoted : List.Forall₂ (s.Quotes n) args (cs.map s.car)) :
    Frame.pendingCells s (.fresh scope none (.pair c)) = cs := by
  have hoperator : Frame.needsEvaluation s (s.car c) = false := by
    rw [hhead]
    cases procedure <;> first | rfl | cases hprocedure
  have hoperands : ∀ d ∈ cs, Frame.needsEvaluation s (s.car d) = true := by
    intro d hd
    obtain ⟨v, hv⟩ : ∃ v, s.Quotes n v (s.car d) :=
      exists_of_mem_left hquoted.flip (List.mem_map_of_mem hd)
    obtain ⟨q, q', hq, hquotation, -⟩ := hv.listAt
    rw [hq] at hquotation ⊢
    exact hquotation.isList
  have hcells : Frame.pendingCells s (.fresh scope none (.pair c)) =
      (s.cells (.pair c)).filter fun d => Frame.needsEvaluation s (s.car d) := rfl
  rw [hcells, hlist.cells_eq, List.filter_cons_of_neg (by simp [hoperator]),
    List.filter_eq_self.2 hoperands]

/-- The machine for a form of a procedure and quoted values comes to the call with these values.
It has made new pairs, and has written to none but these. -/
theorem reaches_loaded (limit : Nat) (scope : Ref) {n : Nat} {procedure : Value}
    {args quoted : List Value} (hprocedure : procedure.isProcedure = true)
    (hquoted : List.Forall₂ (s.Quotes n) args quoted) :
    ∃ f t, Reaches limit (⟨[.fresh scope none (s.list (procedure :: quoted)).1], .void, []⟩,
        (s.list (procedure :: quoted)).2) (⟨[f], .void, []⟩, t) ∧
      f.Loaded t procedure args ∧ f.destination = none ∧ s.GrowsTo t ∧
      (s.list (procedure :: quoted)).2.pairs.size ≤ t.pairs.size := by
  have hgrows := Store.GrowsTo.list s (procedure :: quoted)
  have hlist := s.listAt_list (procedure :: quoted)
  have hcars := s.map_car_list (procedure :: quoted)
  have hplaces : ∀ c ∈ Store.newCells s.pairs.size (procedure :: quoted).length, s.pairs.size ≤ c :=
    fun c hc => (Store.mem_newCells.1 hc).1
  generalize Store.newCells s.pairs.size (procedure :: quoted).length = cells at hlist hcars hplaces
  generalize s.list (procedure :: quoted) = form at hgrows hlist hcars
  obtain ⟨form, s₁⟩ := form
  obtain ⟨c, cs, rfl, hhead, hcars⟩ := List.map_eq_cons_iff.1 hcars
  obtain rfl : form = .pair c := hlist.1.1
  have hquoted : List.Forall₂ (s₁.Quotes n) args (cs.map s₁.car) := by
    rw [hcars]
    exact hquoted.imp fun _ _ h => h.grow hgrows
  have hpending : Frame.pendingCells s₁ (.fresh scope none (.pair c)) = cs :=
    pendingCells_quoted hprocedure hlist hhead hquoted
  cases cs with
  | nil =>
      obtain rfl : args = [] := by simpa using hquoted
      exact ⟨_, s₁, .refl _, ⟨⟨c, [], rfl, hlist, hhead, rfl⟩, hpending⟩, rfl, hgrows,
        Nat.le_refl _⟩
  | cons d ds =>
      have hcells : ∀ e ∈ d :: ds, e < s₁.pairs.size := fun e he => hlist.2 e (by simp [he])
      obtain ⟨hc, hnodup⟩ := List.nodup_cons.1 hlist.1.nodup
      have hsuspend : (Frame.fresh scope none (.pair c)).step.run s₁ = .ok (.suspend
          ⟨.pair c, scope, true, none⟩ (List.zipWith (fun c => .fresh scope (some c)) (d :: ds)
            (s₁.quoteAll args).1)) (s₁.quoteAll args).2 := by
        have hkeyword : ∀ k, procedure ≠ .keyword k := by
          rintro k rfl
          cases hprocedure
        rw [IsForm.run_step ⟨rfl, hlist.isList, hhead⟩, stepHead_eq_application hkeyword,
          Frame.stepApplication, Eval.run_ask_bind, hpending]
        exact Eval.run_bind_ok (Frame.run_mapM_forCell hcells hquoted)
      have hgrow := s₁.growsTo_quoteAll args
      obtain ⟨t, hreaches, hargs, hcdrs, hothers, hsize, hkeeps⟩ :=
        reaches_quoted limit scope .void [⟨.pair c, scope, true, none⟩] []
          (s₁.quotes_quoteAll args) (by rw [hquoted.length_eq, List.length_map]) hcells hnodup
      have hlistT : t.ListAt (.pair c) (c :: d :: ds) :=
        hlist.congr (fun r hr => (hcdrs r).trans (Store.cdr_eq_of_pair_eq
          (hgrow.pair_eq (hlist.2 r hr)))) (hsize ▸ hgrow.size_le)
      have hheadT : t.car c = procedure := by
        rw [hothers c hc, Store.car_eq_of_pair_eq (hgrow.pair_eq (hlist.2 c (by simp))), hhead]
      exact ⟨⟨.pair c, scope, true, none⟩, t,
        (next_suspend (R := []) hsuspend).reaches.trans hreaches,
        ⟨⟨c, d :: ds, rfl, hlistT, hheadT, hargs⟩, rfl⟩, rfl,
        hkeeps s (hgrows.trans hgrow) (List.forall_mem_cons.1 hplaces).2, hsize ▸ hgrow.size_le⟩

end Machine
end LittleScheme

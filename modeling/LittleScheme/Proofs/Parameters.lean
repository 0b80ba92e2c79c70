import LittleScheme.Proofs.Forms
import LittleScheme.Proofs.Lexical

/-!
# Parameters and arguments

Which specifications of parameters are accepted, and what a call binds in its scope. The fixed
parameters are distinct and stand for the arguments in order. The rest parameter is bound after them:
it is not compared with them, and where it has the name of one, that name stands for the list of the
arguments left over.
-/
namespace LittleScheme

/-! ### Specifications -/

namespace Form

theorem run_bindingName_eq_ok {v : Value} {name : String} {s s' : Store} :
    (bindingName v).run s = .ok name s' ↔ v = .symbol name ∧ s' = s := by
  cases v with
  | symbol name' =>
      change EStateM.Result.ok name' s = _ ↔ _
      simp [eq_comm]
  | _ => exact ⟨nofun, nofun⟩

theorem run_addParameter_eq_ok {params ps : List String} {v : Value} {s s' : Store} :
    (addParameter params v).run s = .ok ps s' ↔
      ∃ name, v = .symbol name ∧ name ∉ params ∧ ps = params ++ [name] ∧ s' = s := by
  rw [addParameter, Eval.run_bind_eq_ok]
  constructor
  · rintro ⟨name, s₁, hname, h⟩
    obtain ⟨rfl, rfl⟩ := run_bindingName_eq_ok.1 hname
    by_cases hmem : params.contains name = true
    · simp only [hmem, if_true] at h
      cases h
    · simp only [hmem, Bool.false_eq_true, if_false] at h
      cases h
      exact ⟨name, rfl, by simpa using hmem, rfl, rfl⟩
  · rintro ⟨name, rfl, hmem, rfl, rfl⟩
    refine ⟨name, s', rfl, ?_⟩
    have hmem' : params.contains name = false := by simpa using hmem
    simp only [hmem', Bool.false_eq_true, if_false]
    rfl

/-- What stands at the end of a list of parameters. -/
def restTail : Option String → Value
  | some rest => .symbol rest
  | none => .nil

/-- The specification is a chain of the given names, different from each other, that ends in the rest
name if there is one. -/
structure Specifies (s : Store) (spec : Value) (params : List String) (rest : Option String) : Prop where
  distinct : params.Nodup
  chain : ∃ cs, s.Chain spec cs (restTail rest) ∧ cs.map s.car = params.map .symbol

theorem parametersWithin_tail {v : Value} (hpair : v.isPair = false) (hnil : v ≠ .nil) (n : Nat)
    (before : List String) :
    parametersWithin n before v = do return (before, some (← bindingName v)) := by
  cases v with
  | nil => exact absurd rfl hnil
  | pair r => cases hpair
  | _ => cases n <;> rfl

/-- Where a list of parameters ends, its tail tells the rest parameter. -/
theorem run_parametersWithin_atom {n : Nat} {before params : List String} {rest : Option String}
    {v : Value} {s s' : Store} (hv : v.isPair = false) :
    (parametersWithin n before v).run s = .ok (params, rest) s' ↔
      s' = s ∧ params = before ∧ v = restTail rest := by
  by_cases hnil : v = .nil
  · subst hnil
    have hrun : (parametersWithin n before .nil).run s = .ok (before, none) s := by
      cases n <;> rfl
    rw [hrun]
    cases rest <;> simp [restTail, eq_comm, and_comm]
  · rw [parametersWithin_tail hv hnil, Eval.run_bind_eq_ok]
    constructor
    · rintro ⟨name, s₁, hname, h⟩
      obtain ⟨rfl, rfl⟩ := run_bindingName_eq_ok.1 hname
      cases h
      exact ⟨rfl, rfl, rfl⟩
    · rintro ⟨rfl, rfl, rfl⟩
      cases rest with
      | none => exact absurd rfl hnil
      | some name => exact ⟨name, s', rfl, rfl⟩

theorem chain_pair {s : Store} {r : Ref} {cs : List Ref} {rest : Option String} :
    s.Chain (.pair r) cs (restTail rest) ↔
      ∃ ds, cs = r :: ds ∧ s.Chain (s.cdr r) ds (restTail rest) := by
  cases cs with
  | nil =>
      refine ⟨fun h => ?_, nofun⟩
      cases rest <;> cases h.1
  | cons q cs =>
      rw [Store.chain_cons, Value.pair.injEq]
      exact ⟨fun ⟨hq, h⟩ => ⟨cs, by rw [hq], hq ▸ h⟩,
        fun ⟨ds, hds, h⟩ => by obtain ⟨rfl, rfl⟩ := List.cons.inj hds; exact ⟨rfl, h⟩⟩

/-- The chain of a list of parameters that follow others, all of them different. -/
def Follows (s : Store) (bound : Nat) (v : Value) (before params : List String)
    (rest : Option String) : Prop :=
  params.Nodup ∧ ∃ names cs, params = before ++ names ∧ cs.length ≤ bound ∧
    s.Chain v cs (restTail rest) ∧ cs.map s.car = names.map .symbol

theorem follows_atom {s : Store} {n : Nat} {v : Value} {before params : List String}
    {rest : Option String} (hv : v.isPair = false) (hbefore : before.Nodup) :
    Follows s n v before params rest ↔ params = before ∧ v = restTail rest := by
  simp only [Follows, Store.chain_of_not_pair hv]
  constructor
  · rintro ⟨-, names, cs, rfl, -, ⟨rfl, rfl⟩, hnames⟩
    obtain rfl : names = [] := List.map_eq_nil_iff.1 hnames.symm
    exact ⟨List.append_nil _, rfl⟩
  · rintro ⟨rfl, rfl⟩
    exact ⟨hbefore, [], [], by simp⟩

theorem follows_pair {s : Store} {n : Nat} {r : Ref} {before params : List String}
    {rest : Option String} :
    Follows s (n + 1) (.pair r) before params rest ↔
      ∃ name, s.car r = .symbol name ∧ name ∉ before ∧
        Follows s n (s.cdr r) (before ++ [name]) params rest := by
  simp only [Follows, chain_pair]
  constructor
  · rintro ⟨hdistinct, names, _, rfl, hlen, ⟨cs, rfl, hchain⟩, hcars⟩
    cases names with
    | nil => cases hcars
    | cons name names =>
        obtain ⟨hcar, hcars⟩ := List.cons.inj hcars
        refine ⟨name, hcar, by grind, hdistinct, names, cs, by simp, by simpa using hlen, hchain, hcars⟩
  · rintro ⟨name, hcar, -, hdistinct, names, cs, rfl, hlen, hchain, hcars⟩
    exact ⟨hdistinct, name :: names, r :: cs, by simp, by simpa using hlen, ⟨cs, rfl, hchain⟩,
      by simp [hcar, hcars]⟩

theorem run_parametersWithin_eq_ok {n : Nat} {before params : List String} {rest : Option String}
    {v : Value} {s s' : Store} (hbefore : before.Nodup) :
    (parametersWithin n before v).run s = .ok (params, rest) s' ↔
      s' = s ∧ Follows s n v before params rest := by
  induction n generalizing before v with
  | zero =>
      cases v with
      | pair r =>
          refine ⟨nofun, ?_⟩
          rintro ⟨-, -, names, cs, -, hlen, hchain, -⟩
          obtain ⟨ds, rfl, -⟩ := chain_pair.1 hchain
          cases hlen
      | _ => rw [run_parametersWithin_atom rfl, follows_atom rfl hbefore]
  | succ n ih =>
      cases v with
      | pair r =>
          have hstep : (parametersWithin (n + 1) before (.pair r)).run s =
              (addParameter before (s.car r) >>= fun ps =>
                Eval.ask (fun s => s.cdr r) >>= parametersWithin n ps).run s := rfl
          rw [hstep, Eval.run_bind_eq_ok, follows_pair]
          have hadd : ∀ name, name ∉ before → (before ++ [name]).Nodup := fun name hname =>
            List.concat_eq_append ▸ hbefore.concat hname
          constructor
          · rintro ⟨ps, s₁, hps, h⟩
            obtain ⟨name, hcar, hnew, rfl, rfl⟩ := run_addParameter_eq_ok.1 hps
            obtain ⟨rfl, hfollows⟩ := (ih (hadd name hnew)).1 h
            exact ⟨rfl, name, hcar, hnew, hfollows⟩
          · rintro ⟨rfl, name, hcar, hnew, hfollows⟩
            exact ⟨before ++ [name], s', run_addParameter_eq_ok.2 ⟨name, hcar, hnew, rfl, rfl⟩,
              (ih (hadd name hnew)).2 ⟨rfl, hfollows⟩⟩
      | _ => rw [run_parametersWithin_atom rfl, follows_atom rfl hbefore]

/-- The specifications that are accepted. The bound leaves room for every chain that ends. -/
theorem run_parameters_eq_ok {spec : Value} {params : List String} {rest : Option String}
    {s s' : Store} :
    (parameters spec).run s = .ok (params, rest) s' ↔ s' = s ∧ Specifies s spec params rest := by
  rw [parameters, Eval.run_ask_bind, run_parametersWithin_eq_ok .nil]
  refine and_congr_right fun _ => ?_
  constructor
  · rintro ⟨hdistinct, names, cs, rfl, -, hchain, hcars⟩
    exact ⟨hdistinct, cs, hchain, hcars⟩
  · rintro ⟨hdistinct, cs, hchain, hcars⟩
    exact ⟨hdistinct, params, cs, rfl, hchain.length_le, hchain, hcars⟩

end Form

/-! ### Calls -/

namespace Store

variable {s : Store}

@[simp] theorem size_scopes_bind (s : Store) (r : Ref) (name : String) (v : Value) :
    (s.bind r name v).scopes.size = s.scopes.size := s.count_bind r name v .scope

theorem bindAll_cons (s : Store) (r : Ref) (name : String) (v : Value)
    (bindings : List (String × Value)) :
    s.bindAll r ((name, v) :: bindings) = (s.bind r name v).bindAll r bindings := rfl

theorem scope_bindAll_of_ne {r q : Ref} (h : q ≠ r) (bindings : List (String × Value)) :
    (s.bindAll r bindings).scope q = s.scope q := by
  induction bindings generalizing s with
  | nil => rfl
  | cons b bindings ih => rw [bindAll_cons s r b.1 b.2, ih, scope_bind_of_ne h]

theorem lookup?_bindAll_of_not_mem {r : Ref} (hr : r < s.scopes.size) {name : String}
    {bindings : List (String × Value)} (h : name ∉ bindings.map Prod.fst) :
    ((s.bindAll r bindings).scope r).lookup? name = (s.scope r).lookup? name := by
  induction bindings generalizing s with
  | nil => rfl
  | cons b bindings ih =>
      rw [List.map_cons, List.mem_cons, not_or] at h
      rw [bindAll_cons s r b.1 b.2, ih (by rwa [size_scopes_bind]) h.2, lookup?_bind hr,
        if_neg fun heq => h.1 heq.2.symm]

/-- Of different names each keeps the value it is given. -/
theorem lookup?_bindAll_of_mem {r : Ref} (hr : r < s.scopes.size) {name : String} {v : Value}
    {bindings : List (String × Value)} (hdistinct : (bindings.map Prod.fst).Nodup)
    (h : (name, v) ∈ bindings) :
    ((s.bindAll r bindings).scope r).lookup? name = some v := by
  induction bindings generalizing s with
  | nil => cases h
  | cons b bindings ih =>
      rw [List.map_cons, List.nodup_cons] at hdistinct
      have hr' : r < (s.bind r b.1 b.2).scopes.size := by rwa [size_scopes_bind]
      rw [bindAll_cons s r b.1 b.2]
      rcases List.mem_cons.1 h with rfl | h
      · rw [lookup?_bindAll_of_not_mem hr' hdistinct.1, lookup?_bind hr, if_pos ⟨rfl, rfl⟩]
      · exact ih hr' hdistinct.2 h

/-- The scope of a call: new, with the fixed parameters bound to the arguments in order, the rest
parameter to a new list of those left over, nothing else bound and all other scopes as they were. A
fixed parameter with the name of the rest parameter is the exception. -/
structure CallScope (s : Store) (params : List String) (rest : Option String) (args : List Value)
    (scope : Ref) (s' : Store) : Prop where
  new : scope = s.scopes.size
  fixed : ∀ (i : Nat) name v, params[i]? = some name → args[i]? = some v → rest ≠ some name →
    (s'.scope scope).lookup? name = some v
  more : ∀ name, rest = some name → ∃ v cs, (s'.scope scope).lookup? name = some v ∧
    s'.ListAt v cs ∧ (∀ r ∈ cs, s.pairs.size ≤ r) ∧ cs.map s'.car = args.drop params.length
  only : ∀ name, name ∉ params → rest ≠ some name → (s'.scope scope).lookup? name = none
  others : ∀ r, r ≠ scope → s'.scope r = s.scope r

theorem scope_pushScope_of_ne {q : Ref} (h : q ≠ s.scopes.size) (c : Scope) :
    (s.pushScope c).scope q = s.scope q := by
  simp [scope, pushScope, Array.getD_eq_getD_getElem?, Array.getElem?_push, h]

theorem size_scopes_bindAll (s : Store) (r : Ref) (bindings : List (String × Value)) :
    (s.bindAll r bindings).scopes.size = s.scopes.size := by
  induction bindings generalizing s with
  | nil => rfl
  | cons b bindings ih => rw [bindAll_cons s r b.1 b.2, ih, size_scopes_bind]

/-- The list for a rest parameter is made of new pairs. -/
theorem enterCall_rest {r : Ref} {name : String} (h : (s.closure r).rest = some name)
    (args : List Value) :
    ∃ s₁ : Store, s₁.pairs = s.pairs ∧ (s.enterCall r args).2 =
      (s₁.list (args.drop (s.closure r).params.length)).2.bind s.scopes.size name
        (s₁.list (args.drop (s.closure r).params.length)).1 := by
  refine ⟨_, pairs_bindAll (s.pushScope { parent := some (s.closure r).scope, caller := some r })
    s.scopes.size ((s.closure r).params.zip args), ?_⟩
  simp only [enterCall, h, nextScope]

section enterCall

variable {r : Ref} {args : List Value}

/-- The scope of a call with its fixed parameters bound. -/
def fixedBound (s : Store) (r : Ref) (args : List Value) : Store :=
  (s.pushScope { parent := some (s.closure r).scope, caller := some r }).bindAll s.scopes.size
    ((s.closure r).params.zip args)

/-- The rest parameter is bound last. -/
theorem scope_enterCall (q : Ref) :
    (s.enterCall r args).2.scope q = ((s.fixedBound r args).bindAll s.scopes.size
      ((s.closure r).rest.toList.map fun rest =>
        (rest, (s.list (args.drop (s.closure r).params.length)).1))).scope q := by
  rw [fixedBound, ← bindAll_append]
  exact congrArg (fun scopes : Array Scope => scopes.getD q {}) (enterCall_scopes s r args).1

theorem lookup?_enterCall (name : String) :
    ((s.enterCall r args).2.scope s.scopes.size).lookup? name =
      if (s.closure r).rest = some name then
        some (s.list (args.drop (s.closure r).params.length)).1
      else ((s.fixedBound r args).scope s.scopes.size).lookup? name := by
  have hsize : s.scopes.size < (s.fixedBound r args).scopes.size := by
    rw [fixedBound, size_scopes_bindAll]
    simp [pushScope]
  rw [scope_enterCall]
  cases (s.closure r).rest with
  | none => rfl
  | some rest =>
      simp only [Option.toList_some, List.map_cons, List.map_nil, bindAll_cons, Option.some.injEq]
      rw [show ∀ t : Store, t.bindAll s.scopes.size [] = t from fun _ => rfl, lookup?_bind hsize]
      simp only [true_and]

/-- The fixed parameters have their arguments, and nothing else is bound. -/
theorem lookup?_fixedBound (hlen : (s.closure r).params.length ≤ args.length)
    (hdistinct : (s.closure r).params.Nodup) :
    (∀ (i : Nat) name v, (s.closure r).params[i]? = some name → args[i]? = some v →
      ((s.fixedBound r args).scope s.scopes.size).lookup? name = some v) ∧
    ∀ name, name ∉ (s.closure r).params →
      ((s.fixedBound r args).scope s.scopes.size).lookup? name = none := by
  have hnames : ((s.closure r).params.zip args).map Prod.fst = (s.closure r).params :=
    List.map_fst_zip hlen
  have hsize : s.scopes.size <
      (s.pushScope { parent := some (s.closure r).scope, caller := some r }).scopes.size := by
    simp [pushScope]
  constructor
  · intro i name v hname hv
    refine lookup?_bindAll_of_mem hsize (by rwa [hnames]) ?_
    exact List.mem_of_getElem? (List.getElem?_zip_eq_some.2 ⟨hname, hv⟩)
  · intro name hname
    rw [fixedBound, lookup?_bindAll_of_not_mem hsize (by rwa [hnames]), scope_pushScope_self]
    simp [Scope.lookup?]

/-- A call makes the scope for its arguments. -/
theorem callScope_enterCall (hlen : (s.closure r).params.length ≤ args.length)
    (hdistinct : (s.closure r).params.Nodup) :
    s.CallScope (s.closure r).params (s.closure r).rest args (s.enterCall r args).1
      (s.enterCall r args).2 := by
  rw [s.fst_enterCall]
  obtain ⟨hfixed, hnone⟩ := lookup?_fixedBound hlen hdistinct
  refine ⟨rfl, fun i name v hname hv hrest => ?_, fun name hrest => ?_, fun name hname hrest => ?_,
    fun q hq => ?_⟩
  · rw [lookup?_enterCall, if_neg hrest, hfixed i name v hname hv]
  · obtain ⟨s₁, hpairs, hs'⟩ := enterCall_rest hrest args
    have hlist := listAt_list (s := s₁) (args.drop (s.closure r).params.length)
    refine ⟨(s₁.list (args.drop (s.closure r).params.length)).1,
      newCells s₁.pairs.size (args.drop (s.closure r).params.length).length, ?_, ?_, ?_, ?_⟩
    · rw [lookup?_enterCall, if_pos hrest, fst_list_congr hpairs.symm]
    · rw [hs']
      exact hlist.congr (fun _ _ => rfl) (Nat.le_refl _)
    · intro q hq
      rw [← hpairs]
      exact (mem_newCells.1 hq).1
    · rw [hs']
      exact map_car_list (s := s₁) _
  · rw [lookup?_enterCall, if_neg hrest, hnone name hname]
  · rw [scope_enterCall, scope_bindAll_of_ne hq, fixedBound, scope_bindAll_of_ne hq]
    exact scope_pushScope_of_ne hq _

end enterCall

end Store

theorem Closure.accepts_iff (c : Closure) (count : Nat) : c.arity.accepts count = true ↔
    if c.rest.isSome then c.params.length ≤ count else count = c.params.length := by
  unfold Closure.arity
  cases c.rest <;> simp [Arity.accepts]

theorem Eval.run_enterCall (r : Ref) (args : List Value) (s : Store) :
    (enterCall r args).run s =
      if (s.closure r).arity.accepts args.length then
        .ok (s.enterCall r args).1 (s.enterCall r args).2
      else .error (.error (.failed
        (.arity (s.closure r).title (s.closure r).arity args.length) .none)) s := by
  rw [enterCall, run_ask_bind, checkArity]
  split <;> rfl

theorem Form.run_makeClosure_eq_ok {name : Option String} {spec body v : Value} {scope : Ref}
    {s s' : Store} (h : (makeClosure name spec body scope).run s = .ok v s') :
    ∃ params rest, (parameters spec).run s = .ok (params, rest) s ∧ v = .closure s.closures.size ∧
      s'.closure s.closures.size = { name, params, rest, body, scope } := by
  obtain ⟨_, s₁, hbody, hmake⟩ := Eval.run_bind_eq_ok.1 h
  obtain rfl := (checks_checkBody body).readOnly.eq_of_ok hbody
  obtain ⟨⟨params, rest⟩, s₂, hspec, hnew⟩ := Eval.run_bind_eq_ok.1 hmake
  obtain ⟨rfl, -⟩ := run_parameters_eq_ok.1 hspec
  cases hnew
  exact ⟨params, rest, hspec, rfl, getD_push_self _ _ _⟩

namespace Store

/-- A specification of parameters is accepted exactly when it is a chain of different names that ends in
the empty list or in a rest name. Unless the rest name is one of the others, all names are different. A
call of a closure made from it takes place exactly when the number of arguments fits, and binds them in
a new scope of their own. -/
theorem arguments_land_on_parameters (s : Store) (spec : Value) :
    (∀ params rest s', (Form.parameters spec).run s = .ok (params, rest) s' ↔
      s' = s ∧ Form.Specifies s spec params rest) ∧
    (∀ params rest s', (Form.parameters spec).run s = .ok (params, rest) s' →
      (∀ name, rest = some name → name ∉ params) → (params ++ rest.toList).Nodup) ∧
    ∀ name body scope closure s₁, (Form.makeClosure name spec body scope).run s = .ok closure s₁ →
      ∃ r params rest, closure = .closure r ∧
        (Form.parameters spec).run s = .ok (params, rest) s ∧
        ∀ t : Store, t.closure r = s₁.closure r → ∀ args,
          ((∃ frame t', (Eval.enterCall r args).run t = .ok frame t') ↔
            if rest.isSome then params.length ≤ args.length else args.length = params.length) ∧
          ∀ frame t', (Eval.enterCall r args).run t = .ok frame t' →
            t.CallScope params rest args frame t' := by
  refine ⟨fun params rest s' => Form.run_parameters_eq_ok, fun params rest s' h hrest => ?_,
    fun name body scope closure s₁ h => ?_⟩
  · obtain ⟨-, hspec⟩ := Form.run_parameters_eq_ok.1 h
    refine List.nodup_append.2 ⟨hspec.distinct, by cases rest <;> simp, ?_⟩
    rintro param hparam name hname rfl
    exact hrest param (by simpa using hname) hparam
  · obtain ⟨params, rest, hspec, rfl, hclosure⟩ := Form.run_makeClosure_eq_ok h
    have hdistinct := (Form.run_parameters_eq_ok.1 hspec).2.distinct
    refine ⟨s.closures.size, params, rest, rfl, hspec, fun t ht args => ?_⟩
    rw [hclosure] at ht
    have haccepts := (t.closure s.closures.size).accepts_iff args.length
    rw [ht] at haccepts
    simp only [Eval.run_enterCall, ht]
    split
    · rename_i hcount
      have hlen : params.length ≤ args.length := by
        have hfits := haccepts.1 hcount
        simp only at hfits
        split at hfits <;> omega
      have hscope : t.CallScope _ _ args _ _ :=
        callScope_enterCall (r := s.closures.size) (by rwa [ht]) (by rwa [ht])
      rw [ht] at hscope
      refine ⟨⟨fun _ => haccepts.1 hcount, fun _ => ⟨_, _, rfl⟩⟩, fun frame t' henter => ?_⟩
      cases henter
      exact hscope
    · rename_i hcount
      exact ⟨⟨nofun, fun hfits => absurd (haccepts.2 hfits) hcount⟩, nofun⟩

/-- The rest name is not compared with the others. -/
example : (Form.parameters (.pair 0)).run { pairs := #[⟨.symbol "a", .symbol "a"⟩] } =
    .ok (["a"], some "a") { pairs := #[⟨.symbol "a", .symbol "a"⟩] } := rfl

/-- The closure `(lambda (a . b) a)` called with three arguments. -/
theorem arguments_land_on_parameters_rest :
    let s : Store := { pairs := #[⟨.symbol "a", .symbol "b"⟩, ⟨.symbol "a", .nil⟩], scopes := #[{}] }
    let s₁ : Store := { s with closures := #[⟨none, ["a"], some "b", .pair 1, 0⟩] }
    (Form.makeClosure none (.pair 0) (.pair 1) 0).run s = .ok (.closure 0) s₁ ∧
    ∃ frame t', (Eval.enterCall 0 [.bool true, .eof, .void]).run s₁ = .ok frame t' ∧
      (t'.scope frame).lookup? "a" = some (.bool true) ∧
      ∃ v cs, (t'.scope frame).lookup? "b" = some v ∧ t'.ListAt v cs ∧
        cs.map t'.car = [.eof, .void] := by
  intro s s₁
  have hmade : (Form.makeClosure none (.pair 0) (.pair 1) 0).run s = .ok (.closure 0) s₁ := rfl
  have hspec : (Form.parameters (.pair 0)).run s = .ok (["a"], some "b") s := rfl
  obtain ⟨r, params, rest, hclosure, hparams, hcalls⟩ :=
    (arguments_land_on_parameters s (.pair 0)).2.2 none (.pair 1) 0 _ _ hmade
  obtain rfl := Value.closure.inj hclosure
  obtain ⟨rfl, rfl⟩ : params = ["a"] ∧ rest = some "b" := by
    rw [hspec] at hparams
    cases hparams
    exact ⟨rfl, rfl⟩
  obtain ⟨hfits, hscope⟩ := hcalls s₁ rfl [.bool true, .eof, .void]
  obtain ⟨frame, t', henter⟩ := hfits.2 (by decide)
  obtain ⟨-, hfixed, hmore, -, -⟩ := hscope frame t' henter
  obtain ⟨v, cs, hv, hlist, -, hcars⟩ := hmore "b" rfl
  exact ⟨hmade, frame, t', henter, hfixed 0 "a" _ rfl rfl (by decide), v, cs, hv, hlist, hcars⟩

end Store
end LittleScheme

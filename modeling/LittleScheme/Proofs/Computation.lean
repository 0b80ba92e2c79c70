import LittleScheme.Eval

/-!
# Running computations

What a computation does from a store, told by its parts. Later proofs take a computation apart with
these lemmas and leave the monad closed.
-/
namespace LittleScheme

/-- A reason to stop as it arises in a computation: it is not that a text goes on, and no trace has
been attached yet. -/
def Stop.Fresh : Stop → Prop
  | .error .incomplete => False
  | .error (.unbound _ trace) | .error (.failed _ trace) => trace = .none
  | _ => True

theorem Stop.Fresh.ne_incomplete {e : Stop} (h : e.Fresh) : e ≠ .error .incomplete := by
  rintro rfl
  exact h

/-- A fault of evaluation as it arises, without a trace. -/
def Stop.IsFault (e : Stop) : Prop := ∃ fault, e = .error (.failed fault .none)

theorem Stop.IsFault.fresh {e : Stop} (h : e.IsFault) : e.Fresh := by
  obtain ⟨fault, rfl⟩ := h
  rfl

namespace Eval

variable {α β : Type}

@[simp] theorem run_pure (a : α) (s : Store) : (pure a : Eval α).run s = .ok a s := rfl

@[simp] theorem run_throw (e : Stop) (s : Store) : (throw e : Eval α).run s = .error e s := rfl

@[simp] theorem run_ask (f : Store → α) (s : Store) : (ask f).run s = .ok (f s) s := rfl

@[simp] theorem run_update (f : Store → Store) (s : Store) : (update f).run s = .ok () (f s) := rfl

@[simp] theorem run_make (f : Store → α × Store) (s : Store) :
    (make f).run s = .ok (f s).1 (f s).2 := rfl

@[simp] theorem run_raise (e : Error) (s : Store) :
    (raise e : Eval α).run s = .error (.error e) s := rfl

theorem run_bind (x : Eval α) (f : α → Eval β) (s : Store) :
    (x >>= f).run s = match x.run s with
      | .ok a s => (f a).run s
      | .error e s => .error e s := by
  change EStateM.bind x f s = _
  unfold EStateM.bind EStateM.run
  split <;> simp_all

theorem run_bind_ok {x : Eval α} {f : α → Eval β} {s s' : Store} {a : α}
    (h : x.run s = .ok a s') : (x >>= f).run s = (f a).run s' := by
  rw [run_bind, h]

theorem run_bind_error {x : Eval α} {f : α → Eval β} {s s' : Store} {e : Stop}
    (h : x.run s = .error e s') : (x >>= f).run s = .error e s' := by
  rw [run_bind, h]

theorem run_bind_eq_ok {x : Eval α} {f : α → Eval β} {s s' : Store} {b : β} :
    (x >>= f).run s = .ok b s' ↔ ∃ a s₁, x.run s = .ok a s₁ ∧ (f a).run s₁ = .ok b s' := by
  rw [run_bind]
  cases x.run s with
  | ok a s₁ => exact ⟨fun h => ⟨a, s₁, rfl, h⟩, by rintro ⟨a, s₁, ⟨⟩, h⟩; exact h⟩
  | error e s₁ => simp

theorem run_map_eq_ok {x : Eval α} {f : α → β} {s s' : Store} {b : β} :
    (f <$> x).run s = .ok b s' ↔ ∃ a, x.run s = .ok a s' ∧ f a = b := by
  rw [map_eq_pure_bind, run_bind_eq_ok]
  simp only [run_pure, EStateM.Result.ok.injEq]
  exact ⟨by rintro ⟨a, s₁, h, rfl, rfl⟩; exact ⟨a, h, rfl⟩,
    by rintro ⟨a, h, rfl⟩; exact ⟨a, s', h, rfl, rfl⟩⟩

@[simp] theorem run_ask_bind (f : Store → α) (g : α → Eval β) (s : Store) :
    (ask f >>= g).run s = (g (f s)).run s := rfl

@[simp] theorem run_update_bind (f : Store → Store) (g : Unit → Eval β) (s : Store) :
    (update f >>= g).run s = (g ()).run (f s) := rfl

@[simp] theorem run_make_bind (f : Store → α × Store) (g : α → Eval β) (s : Store) :
    (make f >>= g).run s = (g (f s).1).run (f s).2 := rfl

@[simp] theorem run_pure_bind (a : α) (g : α → Eval β) (s : Store) :
    (pure a >>= g).run s = (g a).run s := rfl

@[simp] theorem run_throw_bind (e : Stop) (g : α → Eval β) (s : Store) :
    ((throw e : Eval α) >>= g).run s = .error e s := rfl

@[simp] theorem run_raise_bind (e : Error) (g : α → Eval β) (s : Store) :
    ((raise e : Eval α) >>= g).run s = .error (.error e) s := rfl

theorem run_lookup (scope : Ref) (name : String) (s : Store) :
    (lookup scope name).run s = match s.get? scope name with
      | some v => .ok v s
      | none => .error (.error (.unbound name .none)) s := by
  rw [lookup, run_ask_bind]
  cases s.get? scope name <;> rfl

theorem run_find (scope : Ref) (name : String) (s : Store) :
    (find scope name).run s = match s.find? scope name with
      | some found => .ok found s
      | none => .error (.error (.unbound name .none)) s := by
  rw [find, run_ask_bind]
  cases s.find? scope name <;> rfl

theorem run_assign (scope : Ref) (name : String) (v : Value) (s : Store) :
    (assign scope name v).run s = match s.find? scope name with
      | some found => .ok v (s.bind found name v)
      | none => .error (.error (.unbound name .none)) s := by
  rw [assign, run_bind, run_find]
  cases s.find? scope name <;> rfl

/-! ### What a computation can return -/

/-- Every value that the computation returns has a property. -/
def Returns (x : Eval α) (P : α → Prop) : Prop := ∀ ⦃s a s'⦄, x.run s = .ok a s' → P a

theorem returns_pure {P : α → Prop} {a : α} (h : P a) : Returns (pure a) P := by
  intro s b s' hb
  cases hb
  exact h

theorem returns_raise {P : α → Prop} (e : Error) : Returns (raise e) P := by
  intro s b s' hb
  cases hb

theorem Returns.bind {P : α → Prop} {Q : β → Prop} {x : Eval α} {f : α → Eval β}
    (hx : Returns x P) (hf : ∀ a, P a → Returns (f a) Q) : Returns (x >>= f) Q := by
  intro s b s' h
  obtain ⟨a, s₁, ha, hb⟩ := run_bind_eq_ok.1 h
  exact hf a (hx ha) hb

theorem returns_bind {P : β → Prop} {x : Eval α} {f : α → Eval β} (hf : ∀ a, Returns (f a) P) :
    Returns (x >>= f) P := by
  intro s b s' h
  obtain ⟨a, s₁, -, hb⟩ := run_bind_eq_ok.1 h
  exact hf a hb

theorem returns_length_mapM (f : α → Eval β) (items : List α) :
    Returns (items.mapM f) fun bs => bs.length = items.length := by
  induction items with
  | nil => exact returns_pure rfl
  | cons a items ih =>
      rw [List.mapM_cons]
      refine returns_bind fun b => ih.bind fun bs hbs => returns_pure ?_
      rw [List.length_cons, List.length_cons, hbs]

/-! ### Computations that change nothing -/

/-- The store stays as it is, whatever the outcome. -/
def ReadOnly (x : Eval α) : Prop := ∀ s, (∃ a, x.run s = .ok a s) ∨ ∃ e, x.run s = .error e s

theorem ReadOnly.eq_of_ok {x : Eval α} (h : ReadOnly x) {s s' : Store} {a : α}
    (hx : x.run s = .ok a s') : s' = s := by
  rcases h s with ⟨b, hb⟩ | ⟨e, he⟩
  · rw [hx] at hb
    exact (EStateM.Result.ok.inj hb).2
  · rw [hx] at he
    contradiction

/-! ### Computations that only check -/

/-- The computation only reads the store. It stops with a fault, or for a reason that `P` allows in
the store. -/
def ChecksFor (P : Store → Stop → Prop) (x : Eval α) : Prop :=
  ∀ s, (∃ a, x.run s = .ok a s) ∨ ∃ e : Stop, (e.IsFault ∨ P s e) ∧ x.run s = .error e s

/-- The computation only reads the store, and stops for reasons of its own. -/
abbrev Checks (x : Eval α) : Prop := ChecksFor (fun _ e => e.Fresh) x

variable {P : Store → Stop → Prop}

theorem ChecksFor.fresh {x : Eval α} (h : Checks x) (s : Store) :
    (∃ a, x.run s = .ok a s) ∨ ∃ e : Stop, e.Fresh ∧ x.run s = .error e s :=
  (h s).imp_right fun ⟨e, hreason, he⟩ => ⟨e, hreason.elim (·.fresh) id, he⟩

theorem checks_pure (a : α) : ChecksFor P (pure a : Eval α) := fun _ => .inl ⟨a, rfl⟩

theorem checks_throw {e : Stop} (h : ∀ s, P s e) : ChecksFor P (throw e : Eval α) :=
  fun s => .inr ⟨e, .inr (h s), rfl⟩

theorem checks_ask (f : Store → α) : ChecksFor P (ask f) := fun s => .inl ⟨f s, rfl⟩

theorem checks_fail (fault : Fault) : ChecksFor P (fail fault : Eval α) :=
  fun _ => .inr ⟨_, .inl ⟨fault, rfl⟩, rfl⟩

theorem checks_malformed (fault : SyntaxFault) : Checks (malformed fault : Eval α) :=
  checks_throw fun _ => trivial

theorem checks_unbound (name : String) : Checks (unbound name : Eval α) :=
  checks_throw fun _ => rfl

theorem ChecksFor.bind {x : Eval α} {f : α → Eval β} (hx : ChecksFor P x)
    (hf : ∀ a, ChecksFor P (f a)) : ChecksFor P (x >>= f) := by
  intro s
  obtain ⟨a, ha⟩ | ⟨e, hreason, he⟩ := hx s
  · rw [run_bind_ok ha]
    exact hf a s
  · exact .inr ⟨e, hreason, run_bind_error he⟩

theorem ChecksFor.map {x : Eval α} (hx : ChecksFor P x) (f : α → β) :
    ChecksFor P (x >>= fun a => pure (f a)) :=
  hx.bind fun a => checks_pure (f a)

theorem checks_mapM {f : α → Eval β} (hf : ∀ a, ChecksFor P (f a)) (items : List α) :
    ChecksFor P (items.mapM f) := by
  induction items with
  | nil => exact checks_pure []
  | cons a items ih =>
      rw [List.mapM_cons]
      exact (hf a).bind fun b => ih.map fun bs => b :: bs

theorem checks_foldlM {f : β → α → Eval β} (hf : ∀ b a, ChecksFor P (f b a)) (items : List α)
    (b : β) : ChecksFor P (items.foldlM f b) := by
  induction items generalizing b with
  | nil => exact checks_pure b
  | cons a items ih =>
      rw [List.foldlM_cons]
      exact (hf b a).bind fun b' => ih b'

theorem checks_written (v : Value) : ChecksFor P (written v) := checks_ask _

theorem checks_ofArithmetic (result : Except ArithmeticFault Number) :
    ChecksFor P (ofArithmetic result) := by
  cases result with
  | ok n => exact checks_pure n
  | error fault => exact checks_fail _

theorem checks_ofPort (result : Except PortFault α) : ChecksFor P (ofPort result) := by
  cases result with
  | ok a => exact checks_pure a
  | error fault => exact checks_fail _

theorem checks_checkArity (name : String) (arity : Arity) (count : Nat) :
    ChecksFor P (checkArity name arity count) := by
  unfold checkArity
  split
  · exact checks_pure ()
  · exact checks_fail _

theorem checks_lookup (scope : Ref) (name : String) : Checks (lookup scope name) := by
  refine (checks_ask _).bind fun found => ?_
  split
  · exact checks_pure _
  · exact checks_unbound name

theorem ChecksFor.readOnly {x : Eval α} (h : Checks x) : ReadOnly x :=
  fun s => (h s).imp_right fun ⟨e, _, he⟩ => ⟨e, he⟩

end Eval
end LittleScheme

import LittleScheme.Proofs.Arithmetic
import LittleScheme.Proofs.Atomicity

/-!
# Exact totals

Sums, differences and products of any number of integers are computed from left to right. They are
exact as long as every result on the way is a 64-bit integer, and fail at the first one that is not,
also when the results after it would be in range again. The arguments have all been checked to be
numbers by then.
-/
namespace LittleScheme

namespace Number

/-- A 64-bit integer. -/
def InRange (n : Int) : Prop := least ≤ n ∧ n ≤ greatest

instance (n : Int) : Decidable (InRange n) := inferInstanceAs (Decidable (_ ∧ _))

theorem inRange_toInt (n : Int64) : InRange n.toInt := exists_toInt_iff.1 ⟨n, rfl⟩

theorem exact_of_not_inRange (operation : String) {n : Int} (h : ¬ InRange n) :
    exact operation n = .error (.overflow operation) := by
  have hout : fit? n = none := fit?_eq_none_iff.2 (by unfold InRange at h; omega)
  rw [exact, hout]

/-! ### Division of integers -/

/-- Only one quotient is too large by one. -/
theorem div_eq_two_pow_iff {a b : Int64} (hb : b ≠ 0) :
    (a.toInt : ℚ) / b.toInt = 2 ^ 63 ↔ a = Int64.minValue ∧ b = -1 := by
  have hb' := toInt_ne_zero hb
  have hlow := a.le_toInt
  have hhigh := a.toInt_lt
  rw [div_eq_iff (by exact_mod_cast hb')]
  constructor
  · intro h
    have hproduct : a.toInt = 2 ^ 63 * b.toInt := by exact_mod_cast h
    have hminus : b.toInt = -1 := by omega
    have hleast : a.toInt = Int64.minValue.toInt := by
      rw [Int64.toInt_minValue]
      omega
    exact ⟨Int64.toInt_inj.1 hleast, Int64.toInt_inj.1 hminus⟩
  · rintro ⟨rfl, rfl⟩
    exact_mod_cast (by decide : Int64.minValue.toInt = 2 ^ 63 * (-1 : Int64).toInt)

theorem div_zero (a : Int64) : div (.integer a) (.integer 0) = .error (.divisionByZero "/") := rfl

/-- A quotient of integers is exact or real, and overflows for one pair of operands. -/
theorem div_integer (a : Int64) {b : Int64} (hb : b ≠ 0) :
    div (.integer a) (.integer b) =
      if b.toInt ∣ a.toInt then exact "/" (a.toInt.tdiv b.toInt)
      else .ok (.real (nearest a / nearest b)) := by
  rw [div, if_neg (toInt_ne_zero hb)]
  by_cases hdvd : b.toInt ∣ a.toInt
  · rw [if_pos hdvd, if_pos (Int.tmod_eq_zero_of_dvd hdvd)]
  · rw [if_neg hdvd, if_neg fun h => hdvd (Int.dvd_of_tmod_eq_zero h)]
    rfl

theorem quotient_zero (a : Int64) :
    quotient (.integer a) (.integer 0) = .error (.divisionByZero "quotient") := by
  have hzero : (integer 0).isZero = true := (isZero_integer 0).2 rfl
  simp [quotient, wholeDivision, isInteger, hzero]

theorem div_overflow {a b : Int64} (hb : b ≠ 0) (h : (a.toInt : ℚ) / b.toInt = 2 ^ 63) :
    div (.integer a) (.integer b) = .error (.overflow "/") ∧
      quotient (.integer a) (.integer b) = .error (.overflow "quotient") := by
  obtain ⟨rfl, rfl⟩ := (div_eq_two_pow_iff hb).1 h
  exact ⟨rfl, rfl⟩

/-- The truncated quotient is a 64-bit integer for all other operands, and `/` is the same integer if
the division is even. -/
theorem div_exact {a b : Int64} (hb : b ≠ 0) (h : (a.toInt : ℚ) / b.toInt ≠ 2 ^ 63) :
    ∃ q : Int64, q.toInt = truncated ((a.toInt : ℚ) / b.toInt) ∧
      quotient (.integer a) (.integer b) = .ok (.integer q) ∧
      (b.toInt ∣ a.toInt →
        q.toInt * b.toInt = a.toInt ∧ div (.integer a) (.integer b) = .ok (.integer q)) := by
  have hb' := toInt_ne_zero hb
  have hpair := mt (div_eq_two_pow_iff hb).2 h
  obtain ⟨q, hq⟩ := Option.ne_none_iff_exists'.1 (mt (fit?_tdiv_eq_none_iff hb).1 hpair)
  rw [fit?_eq_some_iff] at hq
  refine ⟨q, ?_, ?_, fun hdvd => ⟨?_, ?_⟩⟩
  · rw [hq, (isTruncatedRemainder_tmod a.toInt hb').truncated hb']
  · rw [quotient, wholeDivision_integer _ _ _ hb, if_neg hpair, ← hq, exact_toInt]
  · rw [hq, Int.tdiv_mul_cancel hdvd]
  · rw [div_integer a hb, if_pos hdvd, ← hq, exact_toInt]

end Number

namespace Native

open Number

/-! ### Checking the arguments -/

theorem run_numbers (name : String) (ns : List Number) (s : Store) :
    (Argument.numbers name (ns.map .number)).run s = .ok ns s := by
  induction ns with
  | nil => rfl
  | cons n ns ih =>
      rw [Argument.numbers] at ih ⊢
      rw [List.map_cons, List.mapM_cons]
      exact Eval.run_bind_ok ih

/-- The value is no number. -/
def NotNumber (v : Value) : Prop := ∀ n, v ≠ .number n

theorem run_number (name : String) {v : Value} (hv : NotNumber v) (s : Store) :
    (Argument.number name v).run s =
      .error (.error (.failed (.wrongType name .number (s.written v)) .none)) s := by
  cases v with
  | number n => exact absurd rfl (hv n)
  | _ => rfl

theorem run_numbers_wrongType (name : String) (ns : List Number) {v : Value} (hv : NotNumber v)
    (after : List Value) (s : Store) :
    (Argument.numbers name (ns.map .number ++ v :: after)).run s =
      .error (.error (.failed (.wrongType name .number (s.written v)) .none)) s := by
  induction ns with
  | nil =>
      rw [Argument.numbers, List.map_nil, List.nil_append, List.mapM_cons]
      exact Eval.run_bind_error (run_number name hv s)
  | cons n ns ih =>
      rw [Argument.numbers] at ih ⊢
      rw [List.map_cons, List.cons_append, List.mapM_cons]
      exact (Eval.run_bind_ok rfl).trans (Eval.run_bind_error ih)

/-- The first of some values that is no number. -/
theorem exists_first_notNumber {args : List Value} (h : ∃ v ∈ args, NotNumber v) :
    ∃ (ns : List Number) (v : Value) (after : List Value),
      args = ns.map Value.number ++ v :: after ∧ NotNumber v := by
  induction args with
  | nil => simp at h
  | cons u args ih =>
      by_cases hu : NotNumber u
      · exact ⟨[], u, args, rfl, hu⟩
      · obtain ⟨n, rfl⟩ : ∃ n, u = .number n := by simpa [NotNumber] using hu
        obtain ⟨v, hv, hnot⟩ := h
        rcases List.mem_cons.1 hv with rfl | hv
        · exact absurd rfl (hnot n)
        · obtain ⟨ns, v, after, rfl, hnot⟩ := ih ⟨v, hv, hnot⟩
          exact ⟨n :: ns, v, after, rfl, hnot⟩

/-- The procedures that compute with all of their arguments and nothing else. -/
def arithmetic : List Numeric := [.add, .sub, .mul, .div, .quotient, .remainder, .modulo, .abs, .expt]

theorem run_binary_wrongType (name : String) (op : Number → Number → Result) {a b : Value}
    {ns : List Number} {v : Value} {after : List Value} (hv : NotNumber v)
    (hargs : [a, b] = ns.map Value.number ++ v :: after) (s : Store) :
    (Numeric.binary name op a b).run s =
      .error (.error (.failed (.wrongType name .number (s.written v)) .none)) s := by
  match ns with
  | [] =>
      obtain ⟨rfl, -⟩ := List.cons.inj hargs
      exact Eval.run_bind_error (run_number name hv s)
  | [n] =>
      obtain ⟨hfirst, hargs⟩ := List.cons.inj hargs
      obtain ⟨rfl, -⟩ := List.cons.inj hargs
      subst hfirst
      exact (Eval.run_bind_ok rfl).trans (Eval.run_bind_error (run_number name hv s))
  | _ :: _ :: ns => simp at hargs

theorem run_foldFrom_wrongType (name : String) (alone : Number → Result)
    (op : Number → Number → Result) {first : Value} {rest : List Value} {ns : List Number} {v : Value}
    {after : List Value} (hv : NotNumber v) (hargs : first :: rest = ns.map Value.number ++ v :: after)
    (s : Store) :
    (Numeric.foldFrom name alone op first rest).run s =
      .error (.error (.failed (.wrongType name .number (s.written v)) .none)) s := by
  cases ns with
  | nil =>
      obtain ⟨rfl, -⟩ := List.cons.inj hargs
      exact Eval.run_bind_error (run_number name hv s)
  | cons n ns =>
      obtain ⟨rfl, rfl⟩ := List.cons.inj hargs
      have hnumbers := run_numbers_wrongType name ns hv after s
      refine (Eval.run_bind_ok rfl).trans ?_
      cases ns <;> exact Eval.run_bind_error hnumbers

/-- An argument that is no number is reported before anything is computed, and the first one is. -/
theorem run_call_wrongType {p : Numeric} (hp : p ∈ arithmetic) {args : List Value}
    (hcount : p.arity.accepts args.length = true) {ns : List Number} {v : Value} {after : List Value}
    (hargs : args = ns.map Value.number ++ v :: after) (hv : NotNumber v) (s : Store) :
    ((numeric p).call args).run s =
      .error (.error (.failed (.wrongType p.name .number (s.written v)) .none)) s := by
  have hnonempty : args ≠ [] := by simp [hargs]
  obtain ⟨first, rest, rfl⟩ := List.exists_cons_of_ne_nil hnonempty
  rw [run_call (p := numeric p) hcount]
  have hvalue {x : Eval Value}
      (hx : x.run s = .error (.error (.failed (.wrongType p.name .number (s.written v)) .none)) s) :
      (do return Reply.value (← x) : Eval Reply).run s =
        .error (.error (.failed (.wrongType p.name .number (s.written v)) .none)) s :=
    Eval.run_bind_error hx
  have htwo (harity : p.arity = .exactly 2) : ∃ b, rest = [b] := by
    rw [harity] at hcount
    exact List.length_eq_one_iff.1 (by simpa [Arity.accepts] using hcount)
  have hnumbers := run_numbers_wrongType p.name ns hv after s
  rw [← hargs] at hnumbers
  simp only [arithmetic, List.mem_cons, List.not_mem_nil, or_false] at hp
  rcases hp with rfl | rfl | rfl | rfl | rfl | rfl | rfl | rfl | rfl
  · exact hvalue (Eval.run_bind_error hnumbers)
  · exact hvalue (run_foldFrom_wrongType "-" _ _ hv hargs s)
  · exact hvalue (Eval.run_bind_error hnumbers)
  · exact hvalue (run_foldFrom_wrongType "/" _ _ hv hargs s)
  · obtain ⟨b, rfl⟩ := htwo rfl
    exact hvalue (run_binary_wrongType "quotient" _ hv hargs s)
  · obtain ⟨b, rfl⟩ := htwo rfl
    exact hvalue (run_binary_wrongType "remainder" _ hv hargs s)
  · obtain ⟨b, rfl⟩ := htwo rfl
    exact hvalue (run_binary_wrongType "modulo" _ hv hargs s)
  · obtain rfl : rest = [] := by simpa [Numeric.arity, Arity.accepts] using hcount
    cases ns with
    | nil =>
        obtain ⟨rfl, -⟩ := List.cons.inj hargs
        exact hvalue (Eval.run_bind_error (run_number "abs" hv s))
    | cons n ns => simp at hargs
  · obtain ⟨b, rfl⟩ := htwo rfl
    exact hvalue (run_binary_wrongType "expt" _ hv hargs s)

/-! ### Results on the way -/

/-- The call answers with the integer `total` when all results on the way to it are 64-bit integers,
and fails for overflow otherwise. -/
structure Totals (s : Store) (p : Numeric) (args : List Int64) (onTheWay : Nat → Int) (total : Int) :
    Prop where
  exact : (∀ k, InRange (onTheWay k)) → ∃ n : Int64, n.toInt = total ∧
    ((numeric p).call (args.map .integer)).run s = .ok (.value (.integer n)) s
  overflow : (∃ k, ¬ InRange (onTheWay k)) → ((numeric p).call (args.map .integer)).run s =
    .error (.error (.failed (.arithmetic (.overflow p.name)) .none)) s

/-- The operation is computed exactly, or fails for overflow. -/
def Computes (op : Number → Number → Result) (name : String) (f : Int → Int → Int) : Prop :=
  ∀ a b : Int64, op (.integer a) (.integer b) = exact name (f a.toInt b.toInt)

variable {op : Number → Number → Result} {name : String} {f : Int → Int → Int}

/-- The loop stops at the first result that is out of range. -/
theorem run_fold (hop : Computes op name f) (first : Int64) (rest : List Int64) (s : Store) :
    ((∀ k, InRange (((rest.take k).map Int64.toInt).foldl f first.toInt)) →
      ∃ n : Int64, n.toInt = (rest.map Int64.toInt).foldl f first.toInt ∧
        (Numeric.fold op (.integer first) (rest.map .integer)).run s = .ok (.integer n) s) ∧
    ((∃ k, ¬ InRange (((rest.take k).map Int64.toInt).foldl f first.toInt)) →
      (Numeric.fold op (.integer first) (rest.map .integer)).run s =
        .error (.error (.failed (.arithmetic (.overflow name)) .none)) s) := by
  induction rest generalizing first with
  | nil =>
      refine ⟨fun _ => ⟨first, rfl, rfl⟩, fun ⟨k, hk⟩ => absurd ?_ hk⟩
      rw [List.take_nil]
      exact inRange_toInt first
  | cons b rest ih =>
      have hfold : Numeric.fold op (.integer first) ((b :: rest).map .integer) =
          Eval.ofArithmetic (exact name (f first.toInt b.toInt)) >>= fun total =>
            Numeric.fold op total (rest.map .integer) := by
        simp only [Numeric.fold, List.map_cons, List.foldlM_cons, hop first b, bind_assoc]
      rw [hfold]
      by_cases hrange : InRange (f first.toInt b.toInt)
      · obtain ⟨next, hnext⟩ := exists_toInt_iff.2 hrange
        have hstep : (Eval.ofArithmetic (exact name (f first.toInt b.toInt))).run s =
            .ok (.integer next) s := by
          rw [← hnext, exact_toInt]
          rfl
        have hrest := ih next
        rw [hnext] at hrest
        rw [Eval.run_bind_ok hstep]
        refine ⟨fun h => hrest.1 fun k => h (k + 1), fun ⟨k, hk⟩ => hrest.2 ?_⟩
        cases k with
        | zero => exact absurd (inRange_toInt first) hk
        | succ k => exact ⟨k, hk⟩
      · refine ⟨fun h => absurd (h 1) (by simpa using hrange), fun _ => ?_⟩
        rw [exact_of_not_inRange name hrange]
        rfl

theorem foldl_sub (a : Int) (ns : List Int) : ns.foldl (· - ·) a = a - ns.sum := by
  induction ns generalizing a with
  | nil => simp
  | cons n ns ih => rw [List.foldl_cons, ih, List.sum_cons, sub_sub]

/-- A call that does nothing but the loop, once its arguments have been checked. -/
theorem totals_of_fold {s : Store} {p : Numeric} {args rest : List Int64} {first : Int64}
    (hop : Computes op p.name f)
    (hrun : ((numeric p).call (args.map .integer)).run s =
      (do return Reply.value (← Numeric.fold op (.integer first) (rest.map .integer)) :
        Eval Reply).run s) :
    Totals s p args (fun k => ((rest.take k).map Int64.toInt).foldl f first.toInt)
      ((rest.map Int64.toInt).foldl f first.toInt) := by
  obtain ⟨hexact, hoverflow⟩ := run_fold hop first rest s
  refine ⟨fun h => ?_, fun h => ?_⟩
  · obtain ⟨n, hn, hfold⟩ := hexact h
    exact ⟨n, hn, hrun.trans (Eval.run_bind_ok hfold)⟩
  · exact hrun.trans (Eval.run_bind_error (hoverflow h))

theorem map_integer (ns : List Int64) :
    ns.map Value.integer = (ns.map Number.integer).map Value.number := by
  rw [List.map_map]
  rfl

theorem totals_add (ns : List Int64) (s : Store) :
    Totals s .add ns (fun k => ((ns.take k).map Int64.toInt).sum) (ns.map Int64.toInt).sum := by
  have hrun : ((numeric .add).call (ns.map .integer)).run s = (do
      return Reply.value (← Numeric.fold add (.integer 0) (ns.map .integer)) : Eval Reply).run s := by
    rw [run_call (by simp [arity, Numeric.arity, Arity.accepts])]
    change ((Argument.numbers "+" (ns.map .integer) >>= Numeric.fold add (.integer 0)) >>= fun v =>
      pure (Reply.value v)).run s = _
    rw [bind_assoc, map_integer, Eval.run_bind_ok (run_numbers _ _ s)]
  have htotals := totals_of_fold (f := (· + ·)) (fun _ _ => rfl) hrun
  simpa only [Int64.toInt_zero, ← List.sum_eq_foldl] using htotals

theorem totals_mul (ns : List Int64) (s : Store) :
    Totals s .mul ns (fun k => ((ns.take k).map Int64.toInt).prod) (ns.map Int64.toInt).prod := by
  have hrun : ((numeric .mul).call (ns.map .integer)).run s = (do
      return Reply.value (← Numeric.fold mul (.integer 1) (ns.map .integer)) : Eval Reply).run s := by
    rw [run_call (by simp [arity, Numeric.arity, Arity.accepts])]
    change ((Argument.numbers "*" (ns.map .integer) >>= Numeric.fold mul (.integer 1)) >>= fun v =>
      pure (Reply.value v)).run s = _
    rw [bind_assoc, map_integer, Eval.run_bind_ok (run_numbers _ _ s)]
  have htotals := totals_of_fold (f := (· * ·)) (fun _ _ => rfl) hrun
  simpa only [Int64.toInt_one, ← List.prod_eq_foldl] using htotals

theorem totals_sub (a b : Int64) (ns : List Int64) (s : Store) :
    Totals s .sub (a :: b :: ns) (fun k => a.toInt - (((b :: ns).take k).map Int64.toInt).sum)
      (a.toInt - ((b :: ns).map Int64.toInt).sum) := by
  have hrun : ((numeric .sub).call ((a :: b :: ns).map .integer)).run s = (do
      return Reply.value (← Numeric.fold sub (.integer a) ((b :: ns).map .integer)) :
        Eval Reply).run s := by
    change ((Argument.numbers "-" ((b :: ns).map .integer) >>= Numeric.fold sub (.integer a)) >>=
      fun v => pure (Reply.value v)).run s = _
    rw [bind_assoc, map_integer, Eval.run_bind_ok (run_numbers _ _ s)]
  have htotals := totals_of_fold (f := (· - ·)) (fun _ _ => rfl) hrun
  simpa only [foldl_sub] using htotals

/-- A difference of one argument is its negation. -/
theorem totals_negate (a : Int64) (s : Store) :
    Totals s .sub [a] (fun _ => -a.toInt) (-a.toInt) := by
  have hrun : ((numeric .sub).call ([a].map .integer)).run s = (do
      return Reply.value (← Numeric.fold sub (.integer 0) ([a].map .integer)) :
        Eval Reply).run s := by
    change ((Eval.ofArithmetic (sub (.integer 0) (.integer a)) >>= fun n =>
      pure (Value.number n)) >>= fun v => pure (Reply.value v)).run s = _
    simp only [Numeric.fold, List.map_cons, List.map_nil, List.foldlM_cons, List.foldlM_nil, bind_assoc,
      pure_bind]
  obtain ⟨hexact, hoverflow⟩ := totals_of_fold (f := (· - ·)) (fun _ _ => rfl) hrun
  simp only [foldl_sub, Int64.toInt_zero, zero_sub, List.map_cons, List.map_nil, List.sum_singleton]
    at hexact hoverflow
  refine ⟨fun h => hexact fun k => ?_, fun ⟨_, h⟩ => hoverflow ⟨1, by simpa using h⟩⟩
  cases k with
  | zero =>
      change InRange 0
      decide
  | succ k => simpa using h 0

/-- The magnitude of the least integer is too large by one. -/
theorem inRange_natAbs (a : Int64) : InRange a.toInt.natAbs ↔ a ≠ Int64.minValue := by
  have hlow := a.le_toInt
  have hhigh := a.toInt_lt
  rw [Ne, ← Int64.toInt_inj, Int64.toInt_minValue]
  unfold InRange least greatest
  omega

theorem totals_abs (a : Int64) (s : Store) :
    Totals s .abs [a] (fun _ => a.toInt.natAbs) a.toInt.natAbs := by
  have hrun : ((numeric .abs).call ([a].map .integer)).run s = (do
      return Reply.value (.number (← Eval.ofArithmetic (exact "abs" a.toInt.natAbs))) :
        Eval Reply).run s := by
    change ((Eval.ofArithmetic (exact "abs" a.toInt.natAbs) >>= fun n => pure (Value.number n)) >>=
      fun v => pure (Reply.value v)).run s = _
    simp only [bind_assoc, pure_bind]
  refine ⟨fun h => ?_, fun ⟨_, h⟩ => ?_⟩
  · obtain ⟨n, hn⟩ := exists_toInt_iff.2 (h 0)
    rw [hrun, ← hn, exact_toInt]
    exact ⟨n, rfl, rfl⟩
  · rw [hrun, exact_of_not_inRange "abs" h]
    rfl

/-! ### All of it -/

end Native
end LittleScheme

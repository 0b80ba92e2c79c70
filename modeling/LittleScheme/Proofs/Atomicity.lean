import LittleScheme.Proofs.Effects

/-!
# Native procedures that fail change nothing

A call of a native procedure returns a value or fails with a fault, and then the store is as it was:
every object, every scope, every port with what is pending on it, and the console. Two things can
come between. A procedure that changes an element is aborted when the message about its position
would show the object it holds, and a read waits for a line of standard input.
-/
namespace LittleScheme.Native

open Eval

/-! ### Values -/

theorem run_call {p : Native} {args : List Value} (hcount : p.arity.accepts args.length = true)
    (s : Store) : (p.call args).run s = (p.run args).run s := by
  unfold call checkArity
  rw [if_pos hcount]
  rfl

theorem returns_value_bind (x : Eval Value) :
    Returns (do return Reply.value (← x)) fun reply => ∃ v, reply = .value v :=
  returns_bind fun v => returns_pure ⟨v, rfl⟩

/-- Only `apply` answers with a call that is still to be made. -/
theorem returns_value {p : Native} (hp : p ≠ .control .apply) (args : List Value) :
    Returns (p.call args) fun reply => ∃ v, reply = .value v := by
  refine returns_bind fun _ => ?_
  cases p with
  | numeric p | lists p | texts p | vectors p | ports p => exact returns_value_bind _
  | control p =>
      change Returns (p.run args) _
      unfold Control.run
      split
      · exact returns_pure ⟨_, rfl⟩
      · exact absurd rfl hp
      · exact returns_bind fun _ => returns_raise _
      · exact returns_raise _

/-! ### Changes that are aborted -/

theorem run_heldIndex {s : Store} {held position : Value} (hm : s.mentions held position = true)
    (hheld : ∀ n, (Value.number n).same held = false) (name : String) (bound : Nat) :
    (Vectors.heldIndex name held bound position).run s = .error .aborted s := by
  unfold Vectors.heldIndex
  split
  · rename_i n
    simp [Store.mentions, Store.depthLimit, Store.mentionsWithin, Store.parts, hheld n] at hm
  · simp only [Bool.false_eq_true, if_false]
    rw [run_ask_bind, if_pos hm, run_throw_bind]

theorem run_call_of_showsHeld {p : Native} {args : List Value} {s : Store}
    (h : ShowsHeld s p args) : (p.call args).run s = .error .aborted s := by
  cases h with
  | @vector r position v reached =>
      have hm := (Store.mentions_iff fun _ => Vectors.same_vector_iff).2 reached
      have hset : (Vectors.setElement (.vector r) position v).run s = .error .aborted s := by
        rw [Vectors.setElement, Vectors.vectorArg, run_pure_bind, run_ask_bind]
        exact run_bind_error (run_heldIndex hm (fun n => by cases n <;> rfl) _ _)
      exact (run_call rfl s).trans (run_bind_error hset)
  | @bytes r position n byte reached =>
      have hm := (Store.mentions_iff fun _ => Vectors.same_bytes_iff).2 reached
      have hbyte : (Argument.byte "bytevector-u8-set!" (.integer n)).run s =
          .ok (UInt8.ofNat n.toInt.toNat) s := by
        change (if 0 ≤ n.toInt ∧ n.toInt < 256 then _ else _ : Eval UInt8).run s = _
        rw [if_pos byte]
        rfl
      have hset : (Vectors.setByte (.bytes r) position (.integer n)).run s = .error .aborted s := by
        rw [Vectors.setByte, Vectors.bytesArg, run_pure_bind, run_bind_ok hbyte, run_ask_bind]
        exact run_bind_error (run_heldIndex hm (fun n => by cases n <;> rfl) _ _)
      exact (run_call rfl s).trans (run_bind_error hset)

/-! ### Reads that wait -/

theorem run_takeFrom {s : Store} {r : Ref}
    {op : Port → Console → Except Port.Stop (Option Char × Port × Console)}
    (h : op (s.port r) s.console = .error .waiting) :
    (Ports.takeFrom r op).run s = .error .waiting s := by
  unfold Ports.takeFrom
  rw [run_ask_bind, run_ask_bind, h]
  rfl

theorem run_call_of_awaits {p : Native} {args : List Value} {s : Store} (h : Awaits s p args) :
    (p.call args).run s = .error .waiting s := by
  have hread {r : Ref} (hr : s.AwaitsLine r) :
      (Ports.takeFrom r Port.read).run s = .error .waiting s :=
    run_takeFrom (Ports.read_eq_waiting.2 (Ports.pending_eq_waiting.2 hr))
  have hpeek {r : Ref} (hr : s.AwaitsLine r) :
      (Ports.takeFrom r Port.peek).run s = .error .waiting s :=
    run_takeFrom (Ports.peek_eq_waiting.2 (Ports.pending_eq_waiting.2 hr))
  cases h with
  | standard reads awaits | port reads awaits =>
      rcases reads with rfl | rfl
      · exact (run_call rfl s).trans (run_bind_error (hread awaits))
      · exact (run_call rfl s).trans (run_bind_error (hpeek awaits))

/-! ### Calls that fail -/

end LittleScheme.Native

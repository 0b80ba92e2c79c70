import LittleScheme.Native.Call
import LittleScheme.Proofs.Computation
import LittleScheme.Proofs.Depth
import Mathlib.Data.List.TakeWhile

/-!
# What native procedures do to the store

A native procedure first checks its arguments, which only reads the store, and then acts once. So a
call that stops leaves the store as it was, and one that returns has changed data at most: scopes and
closures are as before. A call stops with a fault, which has no trace when it arises; only a change
of an element can be aborted, and only a read can have to wait.
-/
namespace LittleScheme

namespace Eval

variable {α β : Type}

/-- The computation changes data only, or stops with the store as it was, with a fault or for a
reason that `P` allows in the store. -/
def ActsFor (P : Store → Stop → Prop) (x : Eval α) : Prop :=
  ∀ s, match x.run s with
    | .ok _ s' => s'.scopes = s.scopes ∧ s'.closures = s.closures
    | .error e s' => (e.IsFault ∨ P s e) ∧ s' = s

/-- The computation stops with the store as it was, or changes data only. -/
abbrev Acts (x : Eval α) : Prop := ActsFor (fun _ e => e.Fresh) x

variable {P : Store → Stop → Prop}

/-- What stops the computation, and the store then. -/
theorem ActsFor.stop {x : Eval α} (h : ActsFor P x) {s s' : Store} {e : Stop}
    (hrun : x.run s = .error e s') : (e.IsFault ∨ P s e) ∧ s' = s := by
  have hs := h s
  simpa only [hrun] using hs

theorem ChecksFor.acts {x : Eval α} (h : ChecksFor P x) : ActsFor P x := by
  intro s
  obtain ⟨a, ha⟩ | ⟨e, hreason, he⟩ := h s
  · rw [ha]
    exact ⟨rfl, rfl⟩
  · rw [he]
    exact ⟨hreason, rfl⟩

/-- An action after a check may count on what the check establishes. -/
theorem ChecksFor.thenFor {Q : α → Prop} {x : Eval α} {f : α → Eval β} (hx : ChecksFor P x)
    (hreturns : Returns x Q) (hf : ∀ a, Q a → ActsFor P (f a)) : ActsFor P (x >>= f) := by
  intro s
  obtain ⟨a, ha⟩ | ⟨e, hreason, he⟩ := hx s
  · rw [run_bind_ok ha]
    exact hf a (hreturns ha) s
  · rw [run_bind_error he]
    exact ⟨hreason, rfl⟩

theorem ChecksFor.then {x : Eval α} {f : α → Eval β} (hx : ChecksFor P x)
    (hf : ∀ a, ActsFor P (f a)) : ActsFor P (x >>= f) :=
  hx.thenFor (Q := fun _ => True) (fun _ _ _ _ => trivial) fun a _ => hf a

theorem acts_make {f : Store → α × Store}
    (h : ∀ s, (f s).2.scopes = s.scopes ∧ (f s).2.closures = s.closures) : ActsFor P (make f) := h

/-- A last change, and the value after it. -/
theorem acts_update {f : Store → Store} {a : α}
    (h : ∀ s, (f s).scopes = s.scopes ∧ (f s).closures = s.closures) :
    ActsFor P (update f >>= fun _ => pure a) := h

end Eval

namespace Store

theorem listWithTail_data (s : Store) (items : List Value) (tail : Value) :
    (s.listWithTail items tail).2.scopes = s.scopes ∧
      (s.listWithTail items tail).2.closures = s.closures := by
  induction items with
  | nil => exact ⟨rfl, rfl⟩
  | cons v items ih => exact ih

end Store

/-- A read from the port would have to wait: it is standard input, all that was taken of it has been
delivered, and the next line has not arrived as a whole. -/
structure Store.AwaitsLine (s : Store) (r : Ref) : Prop where
  isOpen : (s.port r).closed = false
  delivered : (s.port r).kind = .stdin []
  noLine : '\n' ∉ s.console.unread
  goesOn : s.console.ended = false

namespace Native

/-- The call would have to show the object that it is changing: writing the position comes across
it. The new element of a bytevector is checked before that. -/
inductive ShowsHeld (s : Store) : Native → List Value → Prop
  | vector {r : Ref} {position v : Value} (reached : s.Reaches position (.vector r)) :
      ShowsHeld s (.vectors .vectorSet) [.vector r, position, v]
  | bytes {r : Ref} {position : Value} {n : Int64} (byte : 0 ≤ n.toInt ∧ n.toInt < 256)
      (reached : s.Reaches position (.bytes r)) :
      ShowsHeld s (.vectors .bytevectorSet) [.bytes r, position, .integer n]

/-- The call reads from a port that awaits a line, the standard one if none is given. -/
inductive Awaits (s : Store) : Native → List Value → Prop
  | standard {p : Ports} (reads : p = .readChar ∨ p = .peekChar)
      (awaits : s.AwaitsLine Store.stdin) : Awaits s (.ports p) []
  | port {p : Ports} {r : Ref} (reads : p = .readChar ∨ p = .peekChar) (awaits : s.AwaitsLine r) :
      Awaits s (.ports p) [.port r]

open Eval

variable {P : Store → Stop → Prop}

namespace Argument

theorem checks_wrongType {α : Type} (name : String) (expected : Expected) (v : Value) :
    ChecksFor P (wrongType name expected v : Eval α) :=
  (checks_written v).bind fun _ => checks_fail _

theorem checks_wrongCount {α : Type} (name : String) (arity : Arity) (args : List Value) :
    ChecksFor P (wrongCount name arity args : Eval α) := checks_fail _

theorem checks_number (name : String) (v : Value) : ChecksFor P (number name v) := by
  unfold number
  split
  · exact checks_pure _
  · exact checks_wrongType _ _ _

theorem checks_numbers (name : String) (args : List Value) : ChecksFor P (numbers name args) :=
  checks_mapM (checks_number name) args

theorem checks_integer (name : String) (v : Value) : ChecksFor P (integer name v) := by
  unfold integer
  split
  · exact checks_pure _
  · exact checks_wrongType _ _ _

/-- An integer that passes a test. -/
theorem checks_tested {α : Type} (name : String) (v : Value) (test : Int → Prop) [DecidablePred test]
    (a : Int → α) (fault : Int → Fault) :
    ChecksFor P (do let n ← integer name v; if test n then return a n else fail (fault n)) := by
  refine (checks_integer name v).bind fun n => ?_
  split
  · exact checks_pure _
  · exact checks_fail _

theorem checks_index (name : String) (bound : Nat) (v : Value) : ChecksFor P (index name bound v) :=
  checks_tested name v _ _ _

theorem checks_length (name : String) (v : Value) : ChecksFor P (length name v) :=
  checks_tested name v _ _ _

theorem checks_byte (name : String) (v : Value) : ChecksFor P (byte name v) := checks_tested name v _ _ _

theorem checks_string (name : String) (v : Value) : ChecksFor P (string name v) := by
  unfold string
  split
  · exact checks_ask _
  · exact checks_wrongType _ _ _

theorem checks_char (name : String) (v : Value) : ChecksFor P (char name v) := by
  unfold char
  split
  · exact checks_pure _
  · exact checks_wrongType _ _ _

theorem checks_properList (name : String) (expected : Expected) (v : Value) :
    ChecksFor P (properList name expected v) := by
  refine (checks_ask _).bind fun items => ?_
  split
  · exact checks_pure _
  · exact checks_wrongType _ _ _

end Argument

open Argument

namespace Numeric

theorem checks_fold (op : Number → Number → Number.Result) (first : Number) (rest : List Number) :
    ChecksFor P (fold op first rest) :=
  (checks_foldlM (fun _ _ => checks_ofArithmetic _) rest first).map _

theorem checks_foldFrom (name : String) (alone : Number → Number.Result)
    (op : Number → Number → Number.Result) (first : Value) (rest : List Value) :
    ChecksFor P (foldFrom name alone op first rest) := by
  refine (checks_number name first).bind fun n => ?_
  split
  · exact (checks_ofArithmetic _).map _
  · exact (checks_numbers name _).bind fun ns => checks_fold op n ns

theorem checks_binary (name : String) (op : Number → Number → Number.Result) (a b : Value) :
    ChecksFor P (binary name op a b) :=
  (checks_number name a).bind fun _ => (checks_number name b).bind fun _ =>
    (checks_ofArithmetic _).map _

theorem checks_ordered (name : String) (orders : List Ordering) (args : List Value) :
    ChecksFor P (ordered name orders args) := (checks_numbers name args).map _

theorem checks_extremum (name : String) (keep : Ordering) (first : Value) (rest : List Value) :
    ChecksFor P (extremum name keep first rest) := by
  refine (checks_numbers name _).bind fun ns => ?_
  split <;> exact checks_pure _

theorem checks_rounding (name : String) (rule : Inexact.Rounding) (v : Value) :
    ChecksFor P (rounding name rule v) := by
  refine (checks_number name v).bind fun n => ?_
  split <;> exact checks_pure _

/-- Arithmetic leaves the store alone. -/
theorem checks_run (p : Numeric) (args : List Value) : ChecksFor P (p.run args) := by
  have hunary (name : String) (v : Value) (op : Number → Number.Result) :
      ChecksFor P (do return Value.number (← ofArithmetic (op (← number name v)))) :=
    (checks_number name v).bind fun _ => (checks_ofArithmetic _).map _
  unfold run
  split
  · exact (checks_numbers _ _).bind fun _ => checks_fold _ _ _
  · exact (checks_numbers _ _).bind fun _ => checks_fold _ _ _
  · exact checks_foldFrom _ _ _ _ _
  · exact checks_foldFrom _ _ _ _ _
  · exact checks_binary _ _ _ _
  · exact checks_binary _ _ _ _
  · exact checks_binary _ _ _ _
  · exact checks_ordered _ _ _
  · exact checks_ordered _ _ _
  · exact checks_ordered _ _ _
  · exact checks_ordered _ _ _
  · exact checks_ordered _ _ _
  · exact hunary _ _ _
  · exact checks_extremum _ _ _ _
  · exact checks_extremum _ _ _ _
  · exact checks_pure _
  · exact checks_pure _
  · split <;> exact checks_pure _
  · exact (checks_number _ _).map _
  · exact (checks_number _ _).map _
  · exact hunary _ _ _
  · exact checks_rounding _ _ _
  · exact checks_rounding _ _ _
  · exact checks_rounding _ _ _
  · exact checks_rounding _ _ _
  · exact (checks_number _ _).map _
  · exact checks_binary _ _ _ _
  · exact checks_wrongCount _ _ _

end Numeric

namespace Lists

theorem checks_pairRef (name : String) (v : Value) : ChecksFor P (pairRef name v) := by
  unfold pairRef
  split
  · exact checks_pure _
  · exact checks_wrongType _ _ _

theorem acts_joined (args : List Value) : ActsFor P (joined args) := by
  unfold joined
  split
  · exact (checks_pure _).acts
  · exact (checks_mapM (checks_properList _ _) _).then fun items =>
      acts_make fun s => s.listWithTail_data _ _

theorem checks_tailOf (chain count : Value) : ChecksFor P (tailOf chain count) := by
  refine (checks_index _ _ count).bind fun n => (checks_ask _).bind fun found => ?_
  split
  · exact checks_pure _
  · exact (checks_written chain).bind fun _ => checks_fail _

theorem acts_run (p : Lists) (args : List Value) : ActsFor P (p.run args) := by
  unfold run
  split
  · exact acts_make fun _ => ⟨rfl, rfl⟩
  · exact ((checks_pairRef _ _).bind fun _ => checks_ask _).acts
  · exact ((checks_pairRef _ _).bind fun _ => checks_ask _).acts
  · exact (checks_pairRef _ _).then fun _ => acts_update fun _ => by exact ⟨rfl, rfl⟩
  · exact (checks_pairRef _ _).then fun _ => acts_update fun _ => by exact ⟨rfl, rfl⟩
  · exact acts_make fun s => s.listWithTail_data _ _
  · exact ((checks_properList _ _ _).map _).acts
  · exact acts_joined _
  · exact (checks_properList _ _ _).then fun _ => acts_make fun s => s.listWithTail_data _ _
  · exact (checks_tailOf _ _).acts
  · exact (checks_pure _).acts
  · exact (checks_pure _).acts
  · exact ((checks_ask _).map _).acts
  · exact (checks_pure _).acts
  · exact (checks_pure _).acts
  · exact ((checks_ask _).map _).acts
  · exact (checks_pure _).acts
  · exact (checks_wrongCount _ _ _).acts

end Lists

namespace Texts

theorem checks_charAt (text position : Value) : ChecksFor P (charAt text position) := by
  refine (checks_string _ text).bind fun cs => (checks_index _ _ position).bind fun i => ?_
  split
  · exact checks_pure _
  · exact checks_fail _

theorem acts_slice (text start : Value) (stop : Option Value) : ActsFor P (slice text start stop) := by
  refine (checks_string _ text).then fun cs => (checks_index _ _ start).then fun i => ?_
  have hcut (stop : Nat) : ActsFor P (do
      if stop < i then fail (.startAfterEnd i stop)
      make fun s => s.newString (String.ofList ((cs.toList.drop i).take (stop - i)))) := by
    split
    · exact (checks_fail _).then fun _ => acts_make fun _ => ⟨rfl, rfl⟩
    · exact acts_make fun _ => ⟨rfl, rfl⟩
  cases stop with
  | some stop => exact (checks_index _ _ stop).then hcut
  | none => exact hcut _

theorem acts_ofCharacters (v : Value) : ActsFor P (ofCharacters v) :=
  (checks_properList _ _ v).then fun items => (checks_mapM (checks_char _) items).then fun _ =>
    acts_make fun _ => ⟨rfl, rfl⟩

theorem checks_charOfInteger (v : Value) : ChecksFor P (charOfInteger v) := by
  refine (checks_integer _ v).bind fun n => ?_
  split
  · exact checks_pure _
  · exact checks_fail _

theorem acts_run (p : Texts) (args : List Value) : ActsFor P (p.run args) := by
  have hstrings (name : String) (args : List Value) : ChecksFor P (args.mapM (string name)) :=
    checks_mapM (checks_string name) args
  have hchars (name : String) (args : List Value) : ChecksFor P (args.mapM (char name)) :=
    checks_mapM (checks_char name) args
  unfold run
  split
  · exact (checks_pure _).acts
  · exact ((checks_string _ _).map _).acts
  · exact (checks_charAt _ _).acts
  · exact (hstrings _ _).then fun _ => acts_make fun _ => ⟨rfl, rfl⟩
  · exact acts_slice _ _ _
  · exact acts_slice _ _ _
  · exact ((hstrings _ _).map _).acts
  · exact ((hstrings _ _).map _).acts
  · exact ((checks_string _ _).map _).acts
  · split
    · exact acts_make fun _ => ⟨rfl, rfl⟩
    · exact acts_make fun _ => ⟨rfl, rfl⟩
    · exact (checks_wrongType _ _ _).acts
  · refine ((checks_string _ _).bind fun text => ?_).acts
    split <;> exact checks_pure _
  · exact (checks_number _ _).then fun _ => acts_make fun _ => ⟨rfl, rfl⟩
  · exact (checks_string _ _).then fun _ => acts_make fun s => s.listWithTail_data _ _
  · exact acts_ofCharacters _
  · exact (checks_pure _).acts
  · exact (checks_pure _).acts
  · exact ((checks_char _ _).map _).acts
  · exact (checks_charOfInteger _).acts
  · exact ((hchars _ _).map _).acts
  · exact ((hchars _ _).map _).acts
  · exact (checks_wrongCount _ _ _).acts

end Texts

namespace Vectors

theorem checks_vectorArg (name : String) (v : Value) : ChecksFor P (vectorArg name v) := by
  unfold vectorArg
  split
  · exact checks_pure _
  · exact checks_wrongType _ _ _

theorem checks_bytesArg (name : String) (v : Value) : ChecksFor P (bytesArg name v) := by
  unfold bytesArg
  split
  · exact checks_pure _
  · exact checks_wrongType _ _ _

/-- A position is aborted when it mentions the object that is held. -/
theorem checks_heldIndex {held position : Value}
    (h : ∀ s : Store, s.mentions held position = true → P s .aborted) (name : String)
    (bound : Nat) : ChecksFor P (heldIndex name held bound position) := by
  unfold heldIndex
  split
  · exact checks_index _ _ _
  · simp only [Bool.false_eq_true, if_false]
    intro s
    rw [run_ask_bind]
    cases hm : s.mentions held position with
    | true => exact .inr ⟨.aborted, .inr (h s hm), rfl⟩
    | false => exact checks_index _ _ _ s

theorem returns_vectorArg (name : String) (v : Value) :
    Returns (vectorArg name v) fun r => v = .vector r := by
  cases v with
  | vector r => exact returns_pure rfl
  | _ => exact returns_bind fun _ => returns_raise _

theorem returns_bytesArg (name : String) (v : Value) :
    Returns (bytesArg name v) fun r => v = .bytes r := by
  cases v with
  | bytes r => exact returns_pure rfl
  | _ => exact returns_bind fun _ => returns_raise _

theorem returns_byte (name : String) (v : Value) :
    Returns (byte name v) fun _ => ∃ n, v = .integer n ∧ 0 ≤ n.toInt ∧ n.toInt < 256 := by
  have hinteger : Returns (integer name v) fun m => ∃ n, v = .integer n ∧ m = n.toInt := by
    unfold integer
    split
    · exact returns_pure ⟨_, rfl, rfl⟩
    · exact returns_bind fun _ => returns_raise _
  refine hinteger.bind ?_
  rintro _ ⟨n, rfl, rfl⟩
  split
  · exact returns_pure ⟨n, rfl, ‹_›⟩
  · exact returns_raise _

theorem same_vector_iff {v : Value} {r : Ref} : v.same (.vector r) = true ↔ v = .vector r := by
  cases v <;> simp [Value.same]

theorem same_bytes_iff {v : Value} {r : Ref} : v.same (.bytes r) = true ↔ v = .bytes r := by
  cases v <;> simp [Value.same]

theorem checks_element (target position : Value) : ChecksFor P (element target position) :=
  (checks_vectorArg _ target).bind fun _ => (checks_ask _).bind fun _ =>
    (checks_index _ _ position).map _

theorem acts_setElement {target position v : Value}
    (h : ∀ s, ShowsHeld s (.vectors .vectorSet) [target, position, v] → P s .aborted) :
    ActsFor P (setElement target position v) := by
  refine (checks_vectorArg _ target).thenFor (returns_vectorArg _ target) ?_
  rintro r rfl
  have hheld : ∀ s : Store, s.mentions (.vector r) position = true → P s .aborted :=
    fun s hm => h s (.vector ((Store.mentions_iff fun _ => same_vector_iff).1 hm))
  exact (checks_ask _).then fun _ => (checks_heldIndex hheld _ _).then fun _ =>
    acts_update fun _ => by exact ⟨rfl, rfl⟩

theorem acts_filled (size fill : Value) : ActsFor P (filled size fill) :=
  (checks_length _ size).then fun _ => acts_make fun _ => ⟨rfl, rfl⟩

theorem checks_byteAt (target position : Value) : ChecksFor P (byteAt target position) :=
  (checks_bytesArg _ target).bind fun _ => (checks_ask _).bind fun _ =>
    (checks_index _ _ position).map _

theorem acts_setByte {target position v : Value}
    (h : ∀ s, ShowsHeld s (.vectors .bytevectorSet) [target, position, v] → P s .aborted) :
    ActsFor P (setByte target position v) := by
  refine (checks_bytesArg _ target).thenFor (returns_bytesArg _ target) ?_
  rintro r rfl
  refine (checks_byte _ v).thenFor (returns_byte _ v) ?_
  rintro b ⟨n, rfl, hn⟩
  have hheld : ∀ s : Store, s.mentions (.bytes r) position = true → P s .aborted :=
    fun s hm => h s (.bytes hn ((Store.mentions_iff fun _ => same_bytes_iff).1 hm))
  exact (checks_ask _).then fun _ => (checks_heldIndex hheld _ _).then fun _ =>
    acts_update fun _ => by exact ⟨rfl, rfl⟩

theorem acts_filledBytes (size : Value) (fill : Option Value) : ActsFor P (filledBytes size fill) := by
  refine (checks_length _ size).then fun n => ?_
  cases fill with
  | some v => exact (checks_byte _ v).then fun _ => acts_make fun _ => by exact ⟨rfl, rfl⟩
  | none => exact fun _ => ⟨rfl, rfl⟩

theorem acts_run {p : Vectors} {args : List Value}
    (h : ∀ s, ShowsHeld s (.vectors p) args → P s .aborted) : ActsFor P (p.run args) := by
  unfold run
  split
  · exact acts_make fun _ => ⟨rfl, rfl⟩
  · exact acts_filled _ _
  · exact acts_filled _ _
  · exact (checks_pure _).acts
  · exact ((checks_vectorArg _ _).bind fun _ => (checks_ask _).map _).acts
  · exact (checks_element _ _).acts
  · exact acts_setElement h
  · exact (checks_vectorArg _ _).then fun _ => acts_make fun s => s.listWithTail_data _ _
  · exact (checks_properList _ _ _).then fun _ => acts_make fun _ => ⟨rfl, rfl⟩
  · exact (checks_mapM (checks_byte _) _).then fun _ => acts_make fun _ => ⟨rfl, rfl⟩
  · exact acts_filledBytes _ _
  · exact acts_filledBytes _ _
  · exact (checks_pure _).acts
  · exact ((checks_bytesArg _ _).bind fun _ => (checks_ask _).map _).acts
  · exact (checks_byteAt _ _).acts
  · exact acts_setByte h
  · exact (checks_wrongCount _ _ _).acts

end Vectors

namespace Ports

theorem checks_portRef (name : String) (standard : Ref) (args : List Value) :
    ChecksFor P (portRef name standard args) := by
  unfold portRef
  split
  · exact checks_pure _
  · exact checks_pure _
  · exact checks_wrongType _ _ _

theorem acts_writeTo (r : Ref) (text : String) : ActsFor P (writeTo r text) :=
  (checks_ask _).then fun _ => (checks_ofPort _).then fun _ => acts_update fun _ => by exact ⟨rfl, rfl⟩

theorem acts_takeFrom {r : Ref}
    {op : Port → Console → Except Port.Stop (Option Char × Port × Console)}
    (h : ∀ s : Store, op (s.port r) s.console = .error .waiting → P s .waiting) :
    ActsFor P (takeFrom r op) := by
  intro s
  unfold takeFrom
  rw [run_ask_bind, run_ask_bind]
  cases hop : op (s.port r) s.console with
  | ok result =>
      obtain ⟨c, p, console⟩ := result
      cases c <;> exact ⟨rfl, rfl⟩
  | error stop =>
      cases stop with
      | fault fault => exact ⟨.inl ⟨_, rfl⟩, rfl⟩
      | waiting => exact ⟨.inr (h s hop), rfl⟩

/-- A line may still go on when there is no line end and more input can arrive. -/
theorem takeLine_eq_none {c : Console} :
    c.takeLine = none ↔ '\n' ∉ c.unread ∧ c.ended = false := by
  have hnil : (c.unread.dropWhile fun ch => ch != '\n') = [] ↔ '\n' ∉ c.unread := by
    rw [List.dropWhile_eq_nil_iff]
    refine ⟨fun h hmem => by simpa using h _ hmem, fun h ch hch => ?_⟩
    simp only [bne_iff_ne]
    rintro rfl
    exact h hch
  unfold Console.takeLine
  cases hrest : c.unread.dropWhile fun ch => ch != '\n' with
  | cons ch rest => simp [← hnil, hrest]
  | nil => simp [← hnil, hrest]

theorem pending_eq_waiting {s : Store} {r : Ref} :
    (s.port r).pending s.console = .error .waiting ↔ s.AwaitsLine r := by
  constructor
  · intro h
    unfold Port.pending at h
    split at h
    · cases h
    · rename_i hopen
      split at h
      · cases h
      · rename_i hkind
        cases hline : s.console.takeLine with
        | some taken => simp [hline] at h
        | none =>
            obtain ⟨hnoLine, hgoesOn⟩ := takeLine_eq_none.1 hline
            exact ⟨by simpa using hopen, hkind, hnoLine, hgoesOn⟩
      · cases h
      · cases h
  · intro h
    simp [Port.pending, h.isOpen, h.delivered, takeLine_eq_none.2 ⟨h.noLine, h.goesOn⟩]

theorem read_eq_waiting {p : Port} {c : Console} :
    p.read c = .error .waiting ↔ p.pending c = .error .waiting := by
  unfold Port.read
  cases p.pending c <;> simp

theorem peek_eq_waiting {p : Port} {c : Console} :
    p.peek c = .error .waiting ↔ p.pending c = .error .waiting := by
  unfold Port.peek
  cases p.pending c <;> simp

/-- The port of a read: the standard one, or the first argument. -/
theorem returns_portRef (name : String) (standard : Ref) (args : List Value) :
    Returns (portRef name standard args) fun r =>
      args = [] ∧ r = standard ∨ ∃ more, args = .port r :: more := by
  unfold portRef
  split
  · exact returns_pure (.inl ⟨rfl, rfl⟩)
  · exact returns_pure (.inr ⟨_, rfl⟩)
  · exact returns_bind fun _ => returns_raise _

theorem checks_isPort (test : Port → Bool) (v : Value) : ChecksFor P (isPort test v) := by
  unfold isPort
  split
  · exact (checks_ask _).map _
  · exact checks_pure _

/-- A read waits when its port awaits a line. -/
theorem acts_taken {p : Ports} {args : List Value} (hreads : p = .readChar ∨ p = .peekChar)
    (hcount : args.length ≤ 1) (h : ∀ s, Awaits s (.ports p) args → P s .waiting) (name : String)
    {op : Port → Console → Except Port.Stop (Option Char × Port × Console)}
    (hop : ∀ q c, op q c = .error .waiting ↔ q.pending c = .error .waiting) :
    ActsFor P (do takeFrom (← portRef name Store.stdin args) op) := by
  refine (checks_portRef name _ args).thenFor (returns_portRef name _ args) fun r hr => ?_
  refine acts_takeFrom fun s hs => h s ?_
  have hline : s.AwaitsLine r := pending_eq_waiting.1 ((hop _ _).1 hs)
  obtain ⟨rfl, rfl⟩ | ⟨more, rfl⟩ := hr
  · exact .standard hreads hline
  · obtain rfl : more = [] := List.length_eq_zero_iff.1 (by simpa using hcount)
    exact .port hreads hline

theorem acts_run {p : Ports} {args : List Value} (hcount : p.arity.accepts args.length = true)
    (h : ∀ s, Awaits s (.ports p) args → P s .waiting) : ActsFor P (p.run args) := by
  have hone (hreads : p = .readChar ∨ p = .peekChar) : args.length ≤ 1 := by
    rcases hreads with rfl | rfl <;> simpa [arity, Arity.accepts] using hcount
  unfold run
  split
  · exact (checks_portRef _ _ _).then fun _ => (checks_ask _).then fun _ => acts_writeTo _ _
  · exact (checks_portRef _ _ _).then fun _ => (checks_written _).then fun _ => acts_writeTo _ _
  · exact (checks_portRef _ _ _).then fun _ => acts_writeTo _ _
  · exact (checks_char _ _).then fun _ => (checks_portRef _ _ _).then fun _ => acts_writeTo _ _
  · exact acts_taken (.inl rfl) (hone (.inl rfl)) h _ fun _ _ => read_eq_waiting
  · exact acts_taken (.inr rfl) (hone (.inr rfl)) h _ fun _ _ => peek_eq_waiting
  · exact ((checks_portRef _ _ _).bind fun _ => (checks_ask _).bind fun _ =>
      (checks_ofPort _).map _).acts
  · exact acts_update fun _ => by exact ⟨rfl, rfl⟩
  · exact (checks_wrongType _ _ _).acts
  · exact (checks_isPort _ _).acts
  · exact (checks_isPort _ _).acts
  · exact (checks_string _ _).then fun _ => acts_make fun _ => ⟨rfl, rfl⟩
  · exact acts_make fun _ => ⟨rfl, rfl⟩
  · exact (checks_ask _).then fun _ => (checks_ofPort _).then fun _ =>
      acts_make fun _ => ⟨rfl, rfl⟩
  · exact (checks_wrongType _ _ _).acts
  · exact (checks_pure _).acts
  · exact (checks_pure _).acts
  · exact (checks_pure _).acts
  · exact (checks_wrongCount _ _ _).acts

end Ports

namespace Control

theorem checks_spreadCall (procedure : Value) (args : List Value) :
    ChecksFor P (spreadCall procedure args) := by
  unfold spreadCall
  have hspread (spread : Value) : ChecksFor P (do
      let items ← properList "apply" .spreadList spread
      return Reply.call procedure (args.dropLast ++ items)) := (checks_properList _ _ _).map _
  by_cases hprocedure : procedure.isProcedure = true
  · simp only [hprocedure, if_true]
    split
    · exact checks_pure _
    · exact hspread _
  · simp only [hprocedure]
    refine (checks_wrongType _ _ _).bind fun _ => ?_
    split
    · exact checks_pure _
    · exact hspread _

theorem checks_run (p : Control) (args : List Value) : ChecksFor P (p.run args) := by
  unfold run
  split
  · exact checks_pure _
  · exact checks_spreadCall _ _
  · exact (checks_ask _).bind fun _ => checks_fail _
  · exact checks_wrongCount _ _ _

end Control

/-- A native procedure that returns has changed data only. One that stops leaves the store as it was,
and has found a fault, would have to show the object it is changing, or awaits a line. -/
theorem actsFor_call {p : Native} {args : List Value}
    (hheld : ∀ s, ShowsHeld s p args → P s .aborted) (hawaits : ∀ s, Awaits s p args → P s .waiting) :
    ActsFor P (p.call args) := by
  have hvalue {x : Eval Value} (hx : ActsFor P x) : ActsFor P (do return Reply.value (← x)) := by
    intro s
    have hs := hx s
    rw [run_bind]
    cases hrun : x.run s with
    | ok v s' => simpa [hrun] using hs
    | error e s' => simpa [hrun] using hs
  unfold call checkArity
  split
  · rename_i hcount
    cases p with
    | numeric p => exact hvalue (p.checks_run args).acts
    | lists p => exact hvalue (p.acts_run args)
    | texts p => exact hvalue (p.acts_run args)
    | vectors p => exact hvalue (Vectors.acts_run hheld)
    | ports p => exact hvalue (Ports.acts_run hcount hawaits)
    | control p => exact (p.checks_run args).acts
  · exact fun s => ⟨.inl ⟨_, rfl⟩, rfl⟩

theorem acts_call (p : Native) (args : List Value) : Acts (p.call args) :=
  actsFor_call (fun _ _ => trivial) fun _ _ => trivial

end Native
end LittleScheme

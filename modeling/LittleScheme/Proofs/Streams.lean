import LittleScheme.Proofs.Atomicity

/-!
# Ports as streams

What a program sees of an input port is a tape of characters, read from the front until the port is
closed. It does not see whether the characters come from a string or, a line at a time, from standard
input. What it sees of a port that collects text are the texts written so far.

A run is a sequence of calls of the native procedures that take the port. A call that fails does not
end it.
-/
namespace LittleScheme.Streams

open Eval
open Native (Reply)

/-! ### Runs -/

/-- What can be done with a port. -/
inductive Operation where
  | read
  | peek
  | ready
  | display (v : Value)
  | write (v : Value)
  | newline
  | writeChar (c : Char)
  | output
  | close

namespace Operation

/-- The call of the native procedure. -/
def call (r : Ref) : Operation → Eval Reply
  | read => (Native.ports .readChar).call [.port r]
  | peek => (Native.ports .peekChar).call [.port r]
  | ready => (Native.ports .charReady).call [.port r]
  | display v => (Native.ports .display).call [v, .port r]
  | write v => (Native.ports .write).call [v, .port r]
  | newline => (Native.ports .newline).call [.port r]
  | writeChar c => (Native.ports .writeChar).call [.char c, .port r]
  | output => (Native.ports .getOutputString).call [.port r]
  | close => (Native.ports .closePort).call [.port r]

/-- The text that the operation is to write. -/
def text? (s : Store) : Operation → Option String
  | display v => some (s.displayed v)
  | write v => some (s.written v)
  | newline => some "\n"
  | writeChar c => some (String.singleton c)
  | _ => none

/-- The operation reads or writes, or asks whether it could read. -/
def NeedsOpen : Operation → Prop
  | output | close => False
  | _ => True

/-- The answer to the operation: a value, or the reason why it stopped. -/
def answer (r : Ref) (s : Store) (op : Operation) : Except Stop Reply :=
  match (op.call r).run s with
  | .ok reply _ => .ok reply
  | .error stop _ => .error stop

/-- The store after the operation, also when it failed. -/
def after (r : Ref) (s : Store) (op : Operation) : Store :=
  match (op.call r).run s with
  | .ok _ s' | .error _ s' => s'

theorem answer_ok {r : Ref} {s s' : Store} {op : Operation} {reply : Reply}
    (h : (op.call r).run s = .ok reply s') : op.answer r s = .ok reply ∧ op.after r s = s' := by
  simp [answer, after, h]

theorem answer_error {r : Ref} {s s' : Store} {op : Operation} {stop : Stop}
    (h : (op.call r).run s = .error stop s') : op.answer r s = .error stop ∧ op.after r s = s' := by
  simp [answer, after, h]

/-- An operation that fails changes nothing. -/
theorem after_of_error {r : Ref} {s : Store} {op : Operation} {stop : Stop}
    (h : op.answer r s = .error stop) : op.after r s = s := by
  cases hrun : (op.call r).run s with
  | ok reply s' => simp [answer, hrun] at h
  | error stop s' =>
      have hacts : Acts (op.call r) := by cases op <;> exact Native.acts_call _ _
      obtain ⟨-, rfl⟩ := hacts.stop hrun
      exact (answer_error hrun).2

end Operation

/-- An operation in a run, with the store it was made in and its answer. -/
structure Event where
  before : Store
  operation : Operation
  answer : Except Stop Reply

/-- What happens in a run of operations on one port. -/
def history (r : Ref) : Store → List Operation → List Event
  | _, [] => []
  | s, op :: ops => ⟨s, op, op.answer r s⟩ :: history r (op.after r s) ops

/-- The store after a run. -/
def finish (r : Ref) (s : Store) (ops : List Operation) : Store :=
  ops.foldl (Operation.after r) s

/-- The answers in a run. -/
def answers (r : Ref) (s : Store) (ops : List Operation) : List (Except Stop Reply) :=
  (history r s ops).map Event.answer

/-- The character that a successful read delivered. -/
def Event.delivered? (e : Event) : Option Char :=
  match e.operation, e.answer with
  | .read, .ok (.value (.char c)) => some c
  | _, _ => none

/-- The text that was written with success. -/
def Event.written? (e : Event) : Option String :=
  match e.answer with
  | .ok _ => e.operation.text? e.before
  | .error _ => none

/-- The characters that the reads of a run delivered, in order. -/
def delivered (r : Ref) (s : Store) (ops : List Operation) : List Char :=
  (history r s ops).filterMap Event.delivered?

/-- The texts that were written in a run, in order. -/
def written (r : Ref) (s : Store) (ops : List Operation) : List String :=
  (history r s ops).filterMap Event.written?

variable {r : Ref} {s : Store}

/-! ### Changing a port -/

theorem port_setPort (p : Port) (hr : r < s.ports.size) : (s.setPort r p).port r = p := by
  simp [Store.port, Store.setPort, hr]

theorem size_setPort (r : Ref) (p : Port) : (s.setPort r p).ports.size = s.ports.size := by
  simp [Store.setPort]

theorem answer_close (r : Ref) (s : Store) : Operation.close.answer r s = .ok (.value .void) ∧
    Operation.close.after r s = s.setPort r (s.port r).close :=
  Operation.answer_ok rfl

/-- The answer of an operation that a port refuses. -/
def refused (fault : PortFault) : Except Stop Reply := .error (.error (.failed (.port fault) .none))

/-- A write goes to the port as its text. -/
theorem run_write {op : Operation} {text : String} (h : op.text? s = some text) :
    (op.call r).run s = (do return Reply.value (← Native.Ports.writeTo r text) : Eval Reply).run s := by
  cases op with
  | display v | write v | newline | writeChar c =>
      obtain rfl := Option.some.inj h
      rfl
  | _ => simp [Operation.text?] at h

theorem answer_write_error {op : Operation} {text : String} {fault : PortFault}
    (h : op.text? s = some text) (hwrite : (s.port r).write text = .error fault) :
    op.answer r s = refused fault := by
  have hrun : (Native.Ports.writeTo r text).run s = .error (.error (.failed (.port fault) .none)) s := by
    unfold Native.Ports.writeTo
    rw [run_ask_bind, hwrite]
    rfl
  exact (Operation.answer_error ((run_write h).trans (run_bind_error hrun))).1

theorem answer_write_ok {op : Operation} {text printed : String} {p : Port}
    (h : op.text? s = some text) (hwrite : (s.port r).write text = .ok (p, printed)) :
    op.answer r s = .ok (.value .void) ∧ op.after r s = (s.setPort r p).print printed := by
  have hrun : (Native.Ports.writeTo r text).run s = .ok .void ((s.setPort r p).print printed) := by
    unfold Native.Ports.writeTo
    rw [run_ask_bind, hwrite]
    rfl
  exact Operation.answer_ok ((run_write h).trans (run_bind_ok hrun))

/-- The value for the next character, or for the end of the input. -/
def charOrEof : Option Char → Value
  | some c => .char c
  | none => .eof

/-- Reading and looking are the same up to the operation on the port. -/
theorem run_takeFrom_ok {take : Port → Console → Except Port.Stop (Option Char × Port × Console)}
    {c : Option Char} {p : Port} {console : Console}
    (h : take (s.port r) s.console = .ok (c, p, console)) :
    (Native.Ports.takeFrom r take).run s =
      .ok (charOrEof c) ((s.setPort r p).setConsole console) := by
  unfold Native.Ports.takeFrom
  rw [run_ask_bind, run_ask_bind, h]
  cases c <;> rfl

theorem run_takeFrom_fault {take : Port → Console → Except Port.Stop (Option Char × Port × Console)}
    {fault : PortFault} (h : take (s.port r) s.console = .error (.fault fault)) :
    (Native.Ports.takeFrom r take).run s = .error (.error (.failed (.port fault) .none)) s := by
  unfold Native.Ports.takeFrom
  rw [run_ask_bind, run_ask_bind, h]
  rfl

theorem answer_read_ok {cs : List Char} {console : Console}
    (h : (s.port r).pending s.console = .ok (cs, console)) :
    Operation.read.answer r s = .ok (.value (charOrEof cs.head?)) ∧ Operation.read.after r s =
      (s.setPort r ((s.port r).withPending cs.tail)).setConsole console := by
  have hread : (s.port r).read s.console = .ok (cs.head?, (s.port r).withPending cs.tail, console) := by
    simp only [Port.read, h]
  exact Operation.answer_ok (run_bind_ok (run_takeFrom_ok hread))

theorem answer_peek_ok {cs : List Char} {console : Console}
    (h : (s.port r).pending s.console = .ok (cs, console)) :
    Operation.peek.answer r s = .ok (.value (charOrEof cs.head?)) ∧ Operation.peek.after r s =
      (s.setPort r ((s.port r).withPending cs)).setConsole console := by
  have hpeek : (s.port r).peek s.console = .ok (cs.head?, (s.port r).withPending cs, console) := by
    simp only [Port.peek, h]
  exact Operation.answer_ok (run_bind_ok (run_takeFrom_ok hpeek))

theorem run_ready (r : Ref) (s : Store) : (Operation.ready.call r).run s = (do
    Eval.ofPort (s.port r).ready
    return Reply.value (.bool true) : Eval Reply).run s := by
  change ((Eval.ofPort (s.port r).ready >>= fun _ => pure (Value.bool true)) >>=
    fun v => pure (Reply.value v)).run s = _
  simp only [bind_assoc, pure_bind]

theorem answer_ready_ok (h : (s.port r).ready = .ok ()) :
    Operation.ready.answer r s = .ok (.value (.bool true)) ∧ Operation.ready.after r s = s := by
  have hrun := run_ready r s
  rw [h] at hrun
  exact Operation.answer_ok hrun

theorem answer_ready_error {fault : PortFault} (h : (s.port r).ready = .error fault) :
    Operation.ready.answer r s = refused fault := by
  have hrun := run_ready r s
  rw [h] at hrun
  exact (Operation.answer_error hrun).1

theorem run_output (r : Ref) (s : Store) : (Operation.output.call r).run s = (do
    let text ← Eval.ofPort (s.port r).output
    return Reply.value (← Eval.make fun s => s.newString text) : Eval Reply).run s := by
  change ((Eval.ofPort (s.port r).output >>= fun text => Eval.make fun s => s.newString text) >>=
    fun v => pure (Reply.value v)).run s = _
  rw [bind_assoc]

theorem answer_output_error {fault : PortFault} (h : (s.port r).output = .error fault) :
    Operation.output.answer r s = refused fault := by
  have hrun := run_output r s
  rw [h] at hrun
  exact (Operation.answer_error hrun).1

theorem answer_output_ok {text : String} (h : (s.port r).output = .ok text) :
    Operation.output.answer r s = .ok (.value (s.newString text).1) ∧
      Operation.output.after r s = (s.newString text).2 := by
  have hrun := run_output r s
  rw [h] at hrun
  exact Operation.answer_ok hrun

theorem ports_after_output (r : Ref) (s : Store) : (Operation.output.after r s).ports = s.ports := by
  cases h : (s.port r).output with
  | ok text => rw [(answer_output_ok h).2]; rfl
  | error fault => rw [Operation.after_of_error (answer_output_error h)]

theorem port_after_output (r : Ref) (s : Store) :
    (Operation.output.after r s).port r = s.port r := by
  rw [Store.port, ports_after_output, Store.port]

/-! ### Closed ports -/

/-- A closed port refuses to read and write, whatever its kind is. -/
theorem answer_of_closed (h : (s.port r).closed = true) {op : Operation} (hop : op.NeedsOpen) :
    op.answer r s = refused .closed := by
  have hpending : (s.port r).pending s.console = .error (.fault .closed) := by
    simp only [Port.pending, h, if_true]
  have hwrite (text : String) : (s.port r).write text = .error .closed := by
    simp only [Port.write, h, if_true]
  cases op with
  | read =>
      have hread : (s.port r).read s.console = .error (.fault .closed) := by
        simp only [Port.read, hpending]
      exact (Operation.answer_error (run_bind_error (run_takeFrom_fault hread))).1
  | peek =>
      have hpeek : (s.port r).peek s.console = .error (.fault .closed) := by
        simp only [Port.peek, hpending]
      exact (Operation.answer_error (run_bind_error (run_takeFrom_fault hpeek))).1
  | ready =>
      have hready : (s.port r).ready = .error .closed := by simp only [Port.ready, h, if_true]
      exact answer_ready_error hready
  | display v | write v | newline | writeChar c => exact answer_write_error rfl (hwrite _)
  | output | close => exact hop.elim

theorem closed_close (r : Ref) (s : Store) : ((Operation.close.after r s).port r).closed = true := by
  rw [(answer_close r s).2]
  by_cases hr : r < s.ports.size
  · rw [port_setPort _ hr]
    rfl
  · simp [Store.port, Store.setPort, hr]

/-- No operation opens a port again. -/
theorem closed_after (h : (s.port r).closed = true) (op : Operation) :
    ((op.after r s).port r).closed = true := by
  by_cases hop : op.NeedsOpen
  · rwa [Operation.after_of_error (answer_of_closed h hop)]
  cases op with
  | output => rwa [port_after_output]
  | close => exact closed_close r s
  | _ => exact absurd trivial hop

theorem closed_finish (h : (s.port r).closed = true) (ops : List Operation) :
    ((finish r s ops).port r).closed = true := by
  induction ops generalizing s with
  | nil => exact h
  | cons op ops ih => exact ih (closed_after h op)

theorem closed_of_mem {ops : List Operation} (h : .close ∈ ops) :
    ((finish r s ops).port r).closed = true := by
  induction ops generalizing s with
  | nil => simp at h
  | cons op ops ih =>
      rcases List.mem_cons.1 h with rfl | h
      · exact closed_finish (closed_close r s) ops
      · exact ih h

/-! ### Input -/

/-- What can be seen of an input port: the text that it has not delivered, and whether it is closed. -/
structure Tape where
  rest : List Char
  closed : Bool := false

namespace Tape

/-- The answer to an operation. -/
def answer (tape : Tape) : Operation → Except Stop Reply
  | .read | .peek =>
      if tape.closed then refused .closed else .ok (.value (charOrEof tape.rest.head?))
  | .ready => if tape.closed then refused .closed else .ok (.value (.bool true))
  | .display _ | .write _ | .newline | .writeChar _ =>
      refused (if tape.closed then .closed else .notOutput)
  | .output => refused .notStringOutput
  | .close => .ok (.value .void)

/-- Only a read of an open port moves the tape. -/
def after (tape : Tape) : Operation → Tape
  | .read => if tape.closed then tape else { tape with rest := tape.rest.tail }
  | .close => { tape with closed := true }
  | _ => tape

end Tape

/-- The port shows the tape. The text of a string is all pending; of standard input, a line at most is
pending and the rest is still on the console. -/
structure Shows (s : Store) (r : Ref) (tape : Tape) : Prop where
  live : r < s.ports.size
  closed : (s.port r).closed = tape.closed
  rest : (s.port r).kind = .input tape.rest ∨
    ∃ line, (s.port r).kind = .stdin line ∧ s.console.ended = true ∧
      line ++ s.console.unread = tape.rest

variable {tape : Tape}

/-- A line is the front of the input, and is empty only at its end. -/
theorem takeLine_of_ended {c : Console} (h : c.ended = true) : ∃ line rest,
    c.takeLine = some (line, { c with unread := rest }) ∧ line ++ rest = c.unread ∧
      (line = [] → rest = []) := by
  have hunread := List.takeWhile_append_dropWhile (p := fun ch => ch != '\n') (l := c.unread)
  cases hdrop : c.unread.dropWhile fun ch => ch != '\n' with
  | nil => exact ⟨c.unread, [], by simp only [Console.takeLine, hdrop, h, if_true], by simp, by simp⟩
  | cons ch rest =>
      rw [hdrop] at hunread
      exact ⟨(c.unread.takeWhile fun ch => ch != '\n') ++ [ch], rest,
        by simp only [Console.takeLine, hdrop], by simpa using hunread, by simp⟩

/-- The front of the tape is pending, and what replaces it becomes the new front. -/
theorem Shows.pending (h : Shows s r tape) (hopen : tape.closed = false) :
    ∃ front console back, (s.port r).pending s.console = .ok (front, console) ∧
      front ++ back = tape.rest ∧ (front = [] → back = []) ∧
      ∀ cs, Shows ((s.setPort r ((s.port r).withPending cs)).setConsole console) r
        { tape with rest := cs ++ back } := by
  obtain ⟨hlive, hclosed, hrest⟩ := h
  have hport (p : Port) (console : Console) : ((s.setPort r p).setConsole console).port r = p :=
    port_setPort p hlive
  have hsize (p : Port) (console : Console) :
      r < ((s.setPort r p).setConsole console).ports.size := by
    simpa [Store.setConsole, size_setPort] using hlive
  have hopen' : (s.port r).closed = false := hclosed.trans hopen
  rcases hrest with hkind | ⟨line, hkind, hended, hline⟩
  · refine ⟨tape.rest, s.console, [], by simp [Port.pending, hopen', hkind], by simp, by simp,
      fun cs => ⟨hsize _ _, ?_, .inl ?_⟩⟩
    · simp [hport, Port.withPending, hkind, hclosed]
    · simp [hport, Port.withPending, hkind]
  · have hshows (console : Console) (hc : console.ended = true) (cs : List Char) :
        Shows ((s.setPort r ((s.port r).withPending cs)).setConsole console) r
          { tape with rest := cs ++ console.unread } := by
      refine ⟨hsize _ _, ?_, .inr ⟨cs, ?_, hc, rfl⟩⟩
      · simp [hport, Port.withPending, hkind, hclosed]
      · simp [hport, Port.withPending, hkind]
    cases line with
    | nil =>
        obtain ⟨line, rest, htake, happend, hnil⟩ := takeLine_of_ended hended
        refine ⟨line, _, rest, by simp [Port.pending, hopen', hkind, htake], ?_, hnil,
          hshows { s.console with unread := rest } hended⟩
        rw [happend, ← hline, List.nil_append]
    | cons ch line =>
        exact ⟨ch :: line, s.console, s.console.unread, by simp [Port.pending, hopen', hkind], hline,
          by simp, hshows s.console hended⟩

theorem Shows.isInput (h : Shows s r tape) : (s.port r).isInput = true := by
  rcases h.rest with hkind | ⟨line, hkind, -⟩ <;> simp [Port.isInput, hkind]

theorem Shows.write (h : Shows s r tape) (text : String) :
    (s.port r).write text = .error (if tape.closed then .closed else .notOutput) := by
  rw [Port.write, h.closed]
  cases tape.closed with
  | true => rfl
  | false => rcases h.rest with hkind | ⟨line, hkind, -⟩ <;> simp [hkind]

theorem Shows.output (h : Shows s r tape) : (s.port r).output = .error .notStringOutput := by
  rcases h.rest with hkind | ⟨line, hkind, -⟩ <;> simp [Port.output, hkind]

theorem Shows.close (h : Shows s r tape) :
    Shows (Operation.close.after r s) r { tape with closed := true } := by
  rw [(answer_close r s).2]
  refine ⟨by simpa [size_setPort] using h.live, ?_, ?_⟩
  · rw [port_setPort _ h.live]
    rfl
  · rw [port_setPort _ h.live]
    exact h.rest

/-- An operation on the port is the operation on the tape. -/
theorem Shows.step (h : Shows s r tape) (op : Operation) :
    op.answer r s = tape.answer op ∧ Shows (op.after r s) r (tape.after op) := by
  -- a refused operation leaves store and tape alone
  have hrefused {fault : PortFault} (hanswer : op.answer r s = refused fault)
      (htape : tape.answer op = refused fault) (hafter : tape.after op = tape) :
      op.answer r s = tape.answer op ∧ Shows (op.after r s) r (tape.after op) := by
    rw [hafter, Operation.after_of_error hanswer]
    exact ⟨hanswer.trans htape.symm, h⟩
  have hclosed := h.closed
  cases htape : tape.closed with
  | true =>
      rw [htape] at hclosed
      cases op with
      | read | peek | ready | display v | write v | newline | writeChar c =>
          exact hrefused (answer_of_closed hclosed trivial) (by simp [Tape.answer, htape])
            (by simp [Tape.after, htape])
      | output => exact hrefused (answer_output_error h.output) rfl rfl
      | close => exact ⟨(answer_close r s).1, h.close⟩
  | false =>
      obtain ⟨front, console, back, hpending, hrest, hnil, hshows⟩ := h.pending htape
      have hhead : front.head? = tape.rest.head? := by
        rw [← hrest]
        cases front with
        | nil => simp [hnil rfl]
        | cons c front => rfl
      cases op with
      | read =>
          obtain ⟨hanswer, hafter⟩ := answer_read_ok hpending
          rw [hanswer, hafter, hhead]
          refine ⟨by simp [Tape.answer, htape], ?_⟩
          have htail : tape.rest.tail = front.tail ++ back := by
            rw [← hrest]
            cases front with
            | nil => simp [hnil rfl]
            | cons c front => rfl
          simpa [Tape.after, htape, htail] using hshows front.tail
      | peek =>
          obtain ⟨hanswer, hafter⟩ := answer_peek_ok hpending
          rw [hanswer, hafter, hhead]
          refine ⟨by simp [Tape.answer, htape], ?_⟩
          simpa [Tape.after, hrest] using hshows front
      | ready =>
          have hready : (s.port r).ready = .ok () := by
            rw [Port.ready, hclosed, htape, h.isInput]
            rfl
          obtain ⟨hanswer, hafter⟩ := answer_ready_ok hready
          rw [hanswer, hafter]
          exact ⟨by simp [Tape.answer, htape], h⟩
      | display v | write v | newline | writeChar c =>
          exact hrefused (answer_write_error rfl (h.write _)) rfl rfl
      | output => exact hrefused (answer_output_error h.output) rfl rfl
      | close => exact ⟨(answer_close r s).1, h.close⟩

/-- The tape after a run. -/
def Tape.finish (tape : Tape) (ops : List Operation) : Tape := ops.foldl Tape.after tape

/-- The answers of the tape in a run. -/
def Tape.answers : Tape → List Operation → List (Except Stop Reply)
  | _, [] => []
  | tape, op :: ops => tape.answer op :: (tape.after op).answers ops

/-- A run on the port is the run on the tape. -/
theorem Shows.run (h : Shows s r tape) (ops : List Operation) :
    answers r s ops = tape.answers ops ∧ Shows (finish r s ops) r (tape.finish ops) := by
  induction ops generalizing s tape with
  | nil => exact ⟨rfl, h⟩
  | cons op ops ih =>
      obtain ⟨hanswer, hafter⟩ := h.step op
      obtain ⟨hanswers, hfinish⟩ := ih hafter
      exact ⟨congrArg₂ List.cons hanswer hanswers, hfinish⟩

/-- What an operation delivers is what it takes off the tape. -/
theorem Shows.delivered_step (h : Shows s r tape) (op : Operation) :
    (Event.delivered? ⟨s, op, op.answer r s⟩).toList ++ (tape.after op).rest = tape.rest := by
  rw [(h.step op).1]
  cases op with
  | read =>
      cases hclosed : tape.closed with
      | true => simp [Event.delivered?, Tape.answer, Tape.after, hclosed, refused]
      | false =>
          cases hrest : tape.rest <;>
            simp [Event.delivered?, Tape.answer, Tape.after, hclosed, hrest, charOrEof]
  | _ => rfl

/-- What was delivered and what is left make up the text. -/
theorem Shows.delivered_append (h : Shows s r tape) (ops : List Operation) :
    delivered r s ops ++ (tape.finish ops).rest = tape.rest := by
  induction ops generalizing s tape with
  | nil => rfl
  | cons op ops ih =>
      have hcons : delivered r s (op :: ops) =
          (Event.delivered? ⟨s, op, op.answer r s⟩).toList ++ delivered r (op.after r s) ops := by
        unfold delivered
        rw [history, List.filterMap_cons]
        cases Event.delivered? ⟨s, op, op.answer r s⟩ <;> rfl
      rw [hcons, List.append_assoc, Tape.finish, List.foldl_cons]
      exact (congrArg _ (ih (h.step op).2)).trans (h.delivered_step op)

namespace Tape

theorem closed_finish (tape : Tape) (ops : List Operation) :
    (tape.finish ops).closed = true ↔ tape.closed = true ∨ .close ∈ ops := by
  induction ops generalizing tape with
  | nil => simp [finish]
  | cons op ops ih =>
      have hclosed : (tape.after op).closed = true ↔ tape.closed = true ∨ .close = op := by
        cases op with
        | read =>
            rw [after]
            split <;> simp
        | _ => simp [after]
      rw [finish, List.foldl_cons]
      exact (ih _).trans (by rw [hclosed, List.mem_cons, or_assoc])

/-- Nothing but a read or a close moves the tape. -/
theorem finish_of_still (tape : Tape) {ops : List Operation} (h : ∀ op ∈ ops, op ≠ .read ∧ op ≠ .close) :
    tape.finish ops = tape := by
  induction ops with
  | nil => rfl
  | cons op ops ih =>
      obtain ⟨⟨hread, hclose⟩, hops⟩ := List.forall_mem_cons.1 h
      have hstill : tape.after op = tape := by
        cases op with
        | read => exact absurd rfl hread
        | close => exact absurd rfl hclose
        | _ => rfl
      rw [finish, List.foldl_cons, hstill]
      exact ih hops

/-- A read answers with the end of the input exactly when the port is open and nothing is left. -/
theorem answer_read_eq_eof (tape : Tape) :
    tape.answer .read = .ok (.value .eof) ↔ tape.closed ≠ true ∧ tape.rest = [] := by
  cases hclosed : tape.closed with
  | true => simp [answer, hclosed, refused]
  | false => cases hrest : tape.rest <;> simp [answer, hclosed, hrest, charOrEof]

end Tape

/-! ### Output -/

/-- The port collects what is written to it, and holds the text. -/
structure Collects (s : Store) (r : Ref) (text : String) : Prop where
  live : r < s.ports.size
  kind : (s.port r).kind = .output text

variable {text : String}

theorem Collects.output (h : Collects s r text) : ∃ n,
    Operation.output.answer r s = .ok (.value (.string n)) ∧
      (Operation.output.after r s).string n = text := by
  have hout : (s.port r).output = .ok text := by simp only [Port.output, h.kind]
  obtain ⟨hanswer, hafter⟩ := answer_output_ok hout
  refine ⟨s.strings.size, hanswer, ?_⟩
  rw [hafter]
  simp [Store.newString, Store.string]

/-- A port for output cannot be read. -/
theorem Collects.refuses (h : Collects s r text) {op : Operation}
    (hop : op = .read ∨ op = .peek ∨ op = .ready) : ∃ fault, op.answer r s = refused fault := by
  cases hclosed : (s.port r).closed with
  | true =>
      refine ⟨_, answer_of_closed hclosed ?_⟩
      rcases hop with rfl | rfl | rfl <;> trivial
  | false =>
      have hpending : (s.port r).pending s.console = .error (.fault .notInput) := by
        simp [Port.pending, hclosed, h.kind]
      refine ⟨.notInput, ?_⟩
      rcases hop with rfl | rfl | rfl
      · have hread : (s.port r).read s.console = .error (.fault .notInput) := by
          simp only [Port.read, hpending]
        exact (Operation.answer_error (run_bind_error (run_takeFrom_fault hread))).1
      · have hpeek : (s.port r).peek s.console = .error (.fault .notInput) := by
          simp only [Port.peek, hpending]
        exact (Operation.answer_error (run_bind_error (run_takeFrom_fault hpeek))).1
      · exact answer_ready_error (by simp [Port.ready, Port.isInput, hclosed, h.kind])

/-- A write that succeeds adds its text, and nothing else changes what was collected. -/
theorem Collects.step (h : Collects s r text) (op : Operation) :
    Collects (op.after r s) r
      (text ++ (Event.written? ⟨s, op, op.answer r s⟩).getD "") := by
  have hrefused {fault : PortFault} (hanswer : op.answer r s = refused fault) :
      Collects (op.after r s) r (text ++ (Event.written? ⟨s, op, op.answer r s⟩).getD "") := by
    rw [Operation.after_of_error hanswer, hanswer]
    simpa [Event.written?, refused] using h
  have hwrite {added : String} (hop : op.text? s = some added) :
      Collects (op.after r s) r (text ++ (Event.written? ⟨s, op, op.answer r s⟩).getD "") := by
    cases hclosed : (s.port r).closed with
    | true =>
        have hport : (s.port r).write added = .error .closed := by simp [Port.write, hclosed]
        exact hrefused (answer_write_error hop hport)
    | false =>
        have hport : (s.port r).write added =
            .ok ({ s.port r with kind := .output (text ++ added) }, "") := by
          simp [Port.write, hclosed, h.kind]
        obtain ⟨hanswer, hafter⟩ := answer_write_ok hop hport
        rw [hafter, hanswer]
        refine ⟨by simpa [Store.print, size_setPort] using h.live, ?_⟩
        change ((s.setPort r _).port r).kind = _
        rw [port_setPort _ h.live]
        simp [Event.written?, hop]
  cases op with
  | read =>
      obtain ⟨fault, hanswer⟩ := h.refuses (.inl rfl)
      exact hrefused hanswer
  | peek =>
      obtain ⟨fault, hanswer⟩ := h.refuses (.inr (.inl rfl))
      exact hrefused hanswer
  | ready =>
      obtain ⟨fault, hanswer⟩ := h.refuses (.inr (.inr rfl))
      exact hrefused hanswer
  | display v | write v | newline | writeChar c => exact hwrite rfl
  | output =>
      have hsame : Event.written? ⟨s, .output, Operation.output.answer r s⟩ = none := by
        cases hanswer : Operation.output.answer r s <;> simp [Event.written?, Operation.text?]
      rw [hsame]
      refine ⟨by simpa [ports_after_output] using h.live, ?_⟩
      rw [port_after_output, h.kind]
      simp
  | close =>
      obtain ⟨hanswer, hafter⟩ := answer_close r s
      rw [hafter, hanswer]
      refine ⟨by simpa [size_setPort] using h.live, ?_⟩
      rw [port_setPort _ h.live]
      simpa [Event.written?, Operation.text?, Port.close] using h.kind

/-- What is collected are the texts that were written, one after the other. -/
theorem Collects.run (h : Collects s r text) (ops : List Operation) :
    Collects (finish r s ops) r (text ++ String.join (written r s ops)) := by
  induction ops generalizing s text with
  | nil => simpa [written, history, finish] using h
  | cons op ops ih =>
      have hcons : String.join (written r s (op :: ops)) =
          (Event.written? ⟨s, op, op.answer r s⟩).getD "" ++
            String.join (written r (op.after r s) ops) := by
        unfold written
        rw [history, List.filterMap_cons]
        cases Event.written? ⟨s, op, op.answer r s⟩ with
        | none => simp
        | some added => simp [String.join_cons]
      rw [hcons, ← String.append_assoc]
      exact ih (h.step op)

/-! ### Ports that were just opened -/

/-- A port over a string that has not been used yet. -/
def OverString (s : Store) (r : Ref) (text : String) : Prop :=
  s.ports[r]? = some (Port.ofText text)

/-- The port of standard input, with all of the text still on the console. -/
def OverConsole (s : Store) (r : Ref) (text : String) : Prop :=
  s.ports[r]? = some { kind := .stdin [] } ∧ s.console.unread = text.toList ∧ s.console.ended = true

theorem port_of_getElem? {p : Port} (h : s.ports[r]? = some p) : r < s.ports.size ∧ s.port r = p := by
  obtain ⟨hr, hp⟩ := Array.getElem?_eq_some_iff.1 h
  exact ⟨hr, by simp [Store.port, hr, hp]⟩

theorem OverString.shows (h : OverString s r text) : Shows s r { rest := text.toList } := by
  obtain ⟨hr, hp⟩ := port_of_getElem? h
  exact ⟨hr, by rw [hp]; rfl, .inl (by rw [hp]; rfl)⟩

theorem OverConsole.shows (h : OverConsole s r text) : Shows s r { rest := text.toList } := by
  obtain ⟨hport, hunread, hended⟩ := h
  obtain ⟨hr, hp⟩ := port_of_getElem? hport
  exact ⟨hr, by rw [hp], .inr ⟨[], by rw [hp], hended, by rw [hunread, List.nil_append]⟩⟩

/-- Ports are exact streams of characters, in every run of operations. An input port, over a string or
the console, delivers a prefix of its text; a peek answers as the next read will and is not noticed
afterwards; the end is answered when all was delivered, until the port is closed. The two kinds of
input answer alike at every step. A port that collects text holds what was written with success. A
closed port refuses everything else, and an operation that fails changes nothing. -/
theorem ports_are_streams (text : String) (s : Store) (r : Ref) (ops : List Operation) :
    (OverString s r text ∨ OverConsole s r text →
      delivered r s ops <+: text.toList ∧
      (∀ more, answers r (Operation.peek.after r (finish r s ops)) more =
        answers r (finish r s ops) more) ∧
      (∀ more, (∀ op ∈ more, op ≠ .read ∧ op ≠ .close) →
        Operation.read.answer r (finish r (Operation.peek.after r (finish r s ops)) more) =
          Operation.peek.answer r (finish r s ops)) ∧
      (Operation.read.answer r (finish r s ops) = .ok (.value .eof) ↔
        .close ∉ ops ∧ delivered r s ops = text.toList) ∧
      (Operation.read.answer r (finish r s ops) = .ok (.value .eof) → ∀ more, .close ∉ more →
        Operation.read.answer r (finish r (finish r s ops) more) = .ok (.value .eof)) ∧
      (.close ∉ ops → ∃ next, Operation.read.answer r (finish r s ops) =
        .ok (.value (charOrEof next)))) ∧
    (OverConsole s r text → ∀ (s' : Store) (r' : Ref), OverString s' r' text →
      answers r s ops = answers r' s' ops) ∧
    (s.ports[r]? = some Port.collector → ∃ n,
      Operation.output.answer r (finish r s ops) = .ok (.value (.string n)) ∧
      (Operation.output.after r (finish r s ops)).string n = String.join (written r s ops)) ∧
    (.close ∈ ops → ∀ op : Operation, op.NeedsOpen →
      op.answer r (finish r s ops) = refused .closed) ∧
    ∀ (op : Operation) (stop : Stop), op.answer r (finish r s ops) = .error stop →
      op.after r (finish r s ops) = finish r s ops := by
  refine ⟨fun hinput => ?_, fun hconsole s' r' hstring => ?_, fun hcollects => ?_, fun hclose op hop => ?_,
    fun op stop => Operation.after_of_error⟩
  · have hshows : Shows s r { rest := text.toList } := hinput.elim (·.shows) (·.shows)
    have hend := (hshows.run ops).2
    have hpeeked := (hend.step .peek).2
    have hparts : _ = text.toList := hshows.delivered_append ops
    have hclosed := Tape.closed_finish { rest := text.toList } ops
    set tape := Tape.finish { rest := text.toList } ops
    have hleft : delivered r s ops = text.toList ↔ tape.rest = [] := by
      rw [← hparts]
      simp
    have heof : Operation.read.answer r (finish r s ops) = .ok (.value .eof) ↔
        tape.closed ≠ true ∧ tape.rest = [] := by
      rw [(hend.step .read).1, Tape.answer_read_eq_eof]
    refine ⟨⟨_, hparts⟩, fun more => ?_, fun more hstill => ?_, ?_, fun hread more hmore => ?_,
      fun hopen => ?_⟩
    · rw [(hpeeked.run more).1, (hend.run more).1]
      rfl
    · rw [((hpeeked.run more).2.step .read).1, (hend.step .peek).1, Tape.finish_of_still _ hstill]
      rfl
    · rw [heof, hleft, Ne, hclosed]
      simp
    · obtain ⟨hopen, hrest⟩ := heof.1 hread
      have hlater := (hend.run more).2
      have hnothing := hend.delivered_append more
      rw [hrest, List.append_eq_nil_iff] at hnothing
      rw [(hlater.step .read).1, Tape.answer_read_eq_eof, Ne, Tape.closed_finish]
      exact ⟨not_or.2 ⟨hopen, hmore⟩, hnothing.2⟩
    · have hstays : tape.closed = false := by
        rw [← Bool.not_eq_true, hclosed]
        simpa using hopen
      refine ⟨tape.rest.head?, ?_⟩
      rw [(hend.step .read).1]
      simp [Tape.answer, hstays]
  · rw [(hconsole.shows.run ops).1, (hstring.shows.run ops).1]
  · obtain ⟨hr, hp⟩ := port_of_getElem? hcollects
    have hstart : Collects s r "" := ⟨hr, by rw [hp]; rfl⟩
    have hend := hstart.run ops
    rw [String.empty_append] at hend
    exact hend.output
  · exact answer_of_closed (closed_of_mem hclose) hop

/-- Three characters on two lines, read from the console and from a string, and a line end that is
written once before a port is closed and once after. -/
theorem ports_are_streams_lines :
    let s : Store :=
      { console := .ofText "a\nb"
        ports := #[{ kind := .stdout }, { kind := .stdin [] }, .ofText "a\nb", .collector] }
    let reads : List Operation := [.read, .peek, .read, .read]
    let writes : List Operation := [.newline, .close, .newline]
    OverConsole s 1 "a\nb" ∧ OverString s 2 "a\nb" ∧ answers 1 s reads = answers 2 s reads ∧
    Operation.read.answer 1 (finish 1 s reads) = .ok (.value .eof) ∧
    s.ports[3]? = some Port.collector ∧ (∃ n,
      Operation.output.answer 3 (finish 3 s writes) = .ok (.value (.string n)) ∧
      (Operation.output.after 3 (finish 3 s writes)).string n = "\n") ∧
    Operation.newline.answer 3 (finish 3 s writes) = refused .closed := by
  intro s reads writes
  have hconsole : OverConsole s 1 "a\nb" := ⟨rfl, rfl, rfl⟩
  have hstring : OverString s 2 "a\nb" := rfl
  obtain ⟨hinput, halike, -⟩ := ports_are_streams "a\nb" s 1 reads
  obtain ⟨-, -, hcollects, hclosed, -⟩ := ports_are_streams "" s 3 writes
  obtain ⟨-, -, -, heof, -⟩ := hinput (.inr hconsole)
  have hdelivered : delivered 1 s reads = "a\nb".toList := by decide +kernel
  have hwritten : written 3 s writes = ["\n"] := by decide +kernel
  rw [hwritten] at hcollects
  exact ⟨hconsole, hstring, halike hconsole s 2 hstring, heof.2 ⟨by simp [reads], hdelivered⟩, rfl,
    hcollects rfl, hclosed (by simp [writes]) .newline trivial⟩

end LittleScheme.Streams

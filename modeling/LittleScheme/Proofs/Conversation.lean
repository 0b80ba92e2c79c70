import LittleScheme.Proofs.Confinement
import LittleScheme.Proofs.Lines

/-!
# Conversations

The read loop of the command line puts the lines it hears into a buffer and hands the buffer to the
evaluator. `listen` is that loop with a record of what it does. The record shows that the loop goes by
the rule of `feed`: evaluation is never the reason why a text counts as incomplete.
-/
namespace LittleScheme

open Reader (parseAll)

namespace Evaluator

open Eval

theorem evalAll_confines (e : Evaluator) (fuel : Nat) (exprs : List Value) (scope : Ref) :
    Confines 0 (fun _ => True) (e.evalAll fuel exprs scope) fun _ => True := by
  have hfold (v : Value) : Confines 0 (fun _ => True)
      (exprs.foldlM (fun _ expr => e.eval fuel expr scope) v) fun _ => True := by
    induction exprs generalizing v with
    | nil => exact .pure trivial
    | cons expr exprs ih =>
        rw [List.foldlM_cons]
        exact (e.eval_confines (fun _ _ => trivial) fuel expr trivial).bind fun v _ => ih v
  exact hfold .void

/-- A text counts as incomplete exactly when the reader finds it so. -/
theorem evalText_incomplete_iff (e : Evaluator) (fuel : Nat) (text : String) (scope : Ref)
    (s : Store) : (∃ s', (e.evalText fuel text scope).run s = .error (.error .incomplete) s') ↔
      parseAll text = .error .incomplete := by
  unfold evalText
  cases hread : parseAll text with
  | error err =>
      have hrun : (do
          let data ← ofReader (.error err : Except Error (List Datum))
          let exprs ← Eval.make fun s => s.loadAll data
          e.evalAll fuel exprs scope : Eval Value).run s = .error (.error err) s := rfl
      simp [hrun]
  | ok data =>
      have hconfines := e.evalAll_confines fuel (s.loadAll data).1 scope (s.loadAll data).2
        (Nat.zero_le _)
      have hrun : (do
          let data ← ofReader (.ok data : Except Error (List Datum))
          let exprs ← Eval.make fun s => s.loadAll data
          e.evalAll fuel exprs scope : Eval Value).run s =
          (e.evalAll fuel (s.loadAll data).1 scope).run (s.loadAll data).2 := rfl
      rw [hrun]
      simp only [reduceCtorEq, iff_false]
      rintro ⟨s', h⟩
      simp [h] at hconfines

end Evaluator

namespace CommandLine

open Eval

theorem answer_returns (i : Interpreter) (fuel : Nat) (text : String) :
    Returns (answer i fuel text) fun shown =>
      shown = none ↔ parseAll text = .error .incomplete := by
  intro s shown s' h
  have hiff := i.evaluator.evalText_incomplete_iff fuel text i.environment s
  unfold EStateM.run at h hiff
  unfold answer Interpreter.evalText at h
  rw [← hiff]
  split at h <;> rename_i hrun
  · rw [← (EStateM.Result.ok.inj h).1]
    simp [hrun]
  · rw [← (EStateM.Result.ok.inj h).1]
    simp [hrun]
  · rw [← (EStateM.Result.ok.inj h).1]
    simp [hrun]
  · rename_i hne
    rw [← (EStateM.Result.ok.inj h).1]
    simp only [reduceCtorEq, hrun, false_iff]
    rintro ⟨_, ⟨⟩⟩
    exact hne rfl
  · simp at h

/-- What the read loop has done: the lines it heard, the buffers that it handed over in full, what was
left in the buffer at the end, and whether standard input was left to it alone. -/
structure Transcript where
  heard : List (List Char)
  taken : List String
  left : String
  quiet : Bool
  deriving DecidableEq

/-- The input that is still to come. -/
def input (s : Store) : List Char × Bool := (s.console.unread, s.console.ended)

/-- The read loop with a record of what it does. -/
def listen (i : Interpreter) (fuel : Nat) : Nat → String → Eval Transcript
  | 0, buffer => return ⟨[], [], buffer, true⟩
  | n + 1, buffer => do
      print (if buffer.isEmpty then "> " else "... ")
      let line ← takeLine
      if line.isEmpty then return ⟨[], [], buffer, true⟩
      else
        let buffer := buffer ++ String.ofList line
        let before ← ask input
        let answered ← answer i fuel buffer
        let after ← ask input
        match answered with
        | none =>
            let t ← listen i fuel n buffer
            return { t with heard := line :: t.heard, quiet := before == after && t.quiet }
        | some shown =>
            print shown
            let t ← listen i fuel n ""
            return { t with heard := line :: t.heard, taken := buffer :: t.taken,
                            quiet := before == after && t.quiet }

theorem converse_eq_listen (i : Interpreter) (fuel n : Nat) (buffer : String) :
    converse i fuel n buffer = (do let _ ← listen i fuel n buffer; return ()) := by
  induction n generalizing buffer with
  | zero => rfl
  | succ n ih =>
      unfold converse listen
      simp only [bind_assoc]
      refine bind_congr fun _ => bind_congr fun line => ?_
      by_cases hline : line.isEmpty = true
      · simp [hline]
      · simp only [hline, Bool.false_eq_true, if_false, bind_assoc]
        funext s
        change (answer i fuel _ >>= _).run s = (ask input >>= _).run s
        rw [run_ask_bind, run_bind, run_bind]
        cases (answer i fuel (buffer ++ String.ofList line)).run s with
        | error e s' => rfl
        | ok shown s' =>
            cases shown with
            | none => simp [ih]
            | some shown => simp [ih]

/-- The loop goes by the rule of `feed`. -/
theorem listen_returns (i : Interpreter) (fuel n : Nat) (buffer : String) :
    Returns (listen i fuel n buffer) fun t => feed buffer t.heard = (t.taken, t.left) := by
  induction n generalizing buffer with
  | zero => exact returns_pure rfl
  | succ n ih =>
      refine returns_bind fun _ => returns_bind fun line => ?_
      split
      · exact returns_pure rfl
      · refine returns_bind fun before => (answer_returns i fuel _).bind fun answered hanswered =>
          returns_bind fun after => ?_
        split
        · have hopen := hanswered.1 rfl
          refine (ih (buffer ++ String.ofList line)).bind fun t ht => returns_pure ?_
          rw [feed_cons_of_incomplete hopen, ht]
        · have hclosed := mt hanswered.2 (by simp)
          refine returns_bind fun _ => (ih "").bind fun t ht => returns_pure ?_
          rw [feed_cons_of_ne_incomplete hclosed, ht]

/-! ### The lines that are heard -/

theorem lines_line {xs : List Char} (hxs : '\n' ∉ xs) (cs : List Char) :
    lines (xs ++ '\n' :: cs) = (xs ++ ['\n']) :: lines cs := by
  induction xs with
  | nil => simp [lines]
  | cons x xs ih =>
      obtain ⟨hx, hxs⟩ : '\n' ≠ x ∧ '\n' ∉ xs := by simpa using hxs
      rw [List.cons_append, lines, if_neg (Ne.symm hx), ih hxs]
      rfl

theorem lines_last {xs : List Char} (hxs : '\n' ∉ xs) (hne : xs ≠ []) : lines xs = [xs] := by
  induction xs with
  | nil => contradiction
  | cons x xs ih =>
      obtain ⟨hx, hxs⟩ : '\n' ≠ x ∧ '\n' ∉ xs := by simpa using hxs
      cases xs with
      | nil => simp [lines, Ne.symm hx]
      | cons y ys => rw [lines, if_neg (Ne.symm hx), ih hxs (by simp)]

/-- When all of the input is there, its lines are taken one after the other. -/
theorem takeLine_eq_lines {c : Console} (h : c.ended = true) : ∃ line rest,
    c.takeLine = some (line, { c with unread := rest }) ∧
      (line = [] ∧ lines c.unread = [] ∨
        line ≠ [] ∧ lines c.unread = line :: lines rest ∧ rest.length < c.unread.length) := by
  have hplain : '\n' ∉ c.unread.takeWhile fun ch => ch != '\n' := by
    intro hmem
    simpa using List.mem_takeWhile_imp hmem
  have hunread := List.takeWhile_append_dropWhile (p := fun ch => ch != '\n') (l := c.unread)
  cases hdrop : c.unread.dropWhile fun ch => ch != '\n' with
  | nil =>
      rw [hdrop, List.append_nil] at hunread
      rw [hunread] at hplain
      refine ⟨c.unread, [], by simp only [Console.takeLine, hdrop, h, if_true], ?_⟩
      by_cases hnil : c.unread = []
      · exact .inl ⟨hnil, by simp [hnil, lines]⟩
      · exact .inr ⟨hnil, lines_last hplain hnil, List.length_pos_iff.2 hnil⟩
  | cons ch rest =>
      obtain rfl : ch = '\n' := by
        have hhead := List.head_dropWhile_not (fun ch => ch != '\n') (l := c.unread) (by simp [hdrop])
        simpa [hdrop] using hhead
      rw [hdrop] at hunread
      refine ⟨(c.unread.takeWhile fun ch => ch != '\n') ++ ['\n'], rest,
        by simp only [Console.takeLine, hdrop], .inr ⟨by simp, ?_, ?_⟩⟩
      · rw [← lines_line hplain, hunread]
      · have hlength := congrArg List.length hunread
        simp only [List.length_append, List.length_cons] at hlength
        omega

theorem run_takeLine {s : Store} {line : List Char} {c : Console}
    (h : s.console.takeLine = some (line, c)) : takeLine.run s = .ok line (s.setConsole c) := by
  simp only [takeLine, EStateM.run, h]

/-- When no program takes any of the input, the loop hears all of its lines. -/
theorem listen_heard {i : Interpreter} {fuel n : Nat} {buffer : String} {s s' : Store}
    {t : Transcript} (hended : s.console.ended = true) (hn : s.console.unread.length < n)
    (h : (listen i fuel n buffer).run s = .ok t s') (hquiet : t.quiet = true) :
    t.heard = lines s.console.unread := by
  induction n generalizing buffer s t s' with
  | zero => simp at hn
  | succ n ih =>
      unfold listen at h
      obtain ⟨_, s₀, hprint, h⟩ := run_bind_eq_ok.1 h
      have hinput : input s₀ = input s := by
        obtain ⟨-, rfl⟩ := EStateM.Result.ok.inj hprint
        rfl
      obtain ⟨hunread, hended₀⟩ := Prod.mk.inj hinput
      obtain ⟨line, rest, htake, hlines⟩ := takeLine_eq_lines (hended₀.trans hended)
      rw [hunread] at hlines
      rw [run_bind_ok (run_takeLine htake)] at h
      obtain ⟨rfl, hnil⟩ | ⟨hne, hcons, hlength⟩ := hlines
      · obtain ⟨rfl, -⟩ := EStateM.Result.ok.inj h
        exact hnil.symm
      · have hempty : line.isEmpty = false := by simpa using hne
        simp only [hempty, Bool.false_eq_true, if_false, run_ask_bind] at h
        obtain ⟨answered, s₂, hanswer, h⟩ := run_bind_eq_ok.1 h
        rw [run_ask_bind] at h
        -- a quiet turn leaves the rest of the input as it is for the next one
        have hnext {next : String} {s₃ : Store} {u : Transcript} (hs₃ : input s₃ = input s₂)
            (hrun : (listen i fuel n next).run s₃ = .ok u s') (hu : u.quiet = true)
            (hsame : (rest, s₀.console.ended) = input s₂) : u.heard = lines rest := by
          obtain ⟨hunread₃, hended₃⟩ := Prod.mk.inj (hs₃.trans hsame.symm)
          have hheard := ih (hended₃.trans (hended₀.trans hended))
            (by rw [hunread₃]; omega) hrun hu
          rw [hheard, hunread₃]
        cases answered with
        | none =>
            obtain ⟨u, s₃, hlisten, h⟩ := run_bind_eq_ok.1 h
            obtain ⟨rfl, rfl⟩ := EStateM.Result.ok.inj h
            obtain ⟨hsame, hu⟩ := Bool.and_eq_true_iff.1 hquiet
            rw [hcons, hnext rfl hlisten hu (beq_iff_eq.1 hsame)]
        | some shown =>
            obtain ⟨_, s₃, hshown, h⟩ := run_bind_eq_ok.1 h
            have hs₃ : input s₃ = input s₂ := by
              obtain ⟨-, rfl⟩ := EStateM.Result.ok.inj hshown
              rfl
            obtain ⟨u, s₄, hlisten, h⟩ := run_bind_eq_ok.1 h
            obtain ⟨rfl, rfl⟩ := EStateM.Result.ok.inj h
            obtain ⟨hsame, hu⟩ := Bool.and_eq_true_iff.1 hquiet
            rw [hcons, hnext hs₃ hlisten hu (beq_iff_eq.1 hsame)]

/-! ### The text and its lines -/

/-- Reading line by line equals reading the whole text. A text reads as `ds` exactly when all buffers
that its lines make read, nothing is left in the buffer, and the data of the buffers, in order, are
`ds`; no line of a text that reads brings a fault to light. The buffers are those of the read loop,
for a conversation in which no program reads from standard input. -/
theorem text_reads_as_its_lines (text : String) :
    (∀ ds, parseAll text = .ok ds ↔ Delivers (feed "" (lines text.toList)) ds) ∧
    (∀ ds, parseAll text = .ok ds → ∀ n fault,
      parseAll (String.ofList ((lines text.toList).take n).flatten) ≠ .error (.malformed fault)) ∧
    (∀ i fuel n s t s', s.console.unread = text.toList → s.console.ended = true → text.length < n →
      (listen i fuel n "").run s = .ok t s' → t.quiet = true →
        (t.taken, t.left) = feed "" (lines text.toList) ∧
          (converse i fuel n "").run s = .ok () s') := by
  refine ⟨fun ds => ?_, fun ds h n fault => ?_, fun i fuel n s t s' hunread hended hn h hquiet => ?_⟩
  · have hlines := readChars_eq_ok_iff_delivers (cut_lines text.toList) "" (.inl rfl) ds
    rwa [flatten_lines, String.toList_empty, List.nil_append] at hlines
  · rw [Reader.parseAll_eq_readChars, String.toList_ofList]
    exact readChars_lines_ne_malformed h n fault
  · have hheard : t.heard = lines text.toList := by
      rw [← hunread]
      exact listen_heard hended (by rwa [hunread, String.length_toList]) h hquiet
    have hfeed : feed "" t.heard = (t.taken, t.left) := listen_returns i fuel n "" h
    rw [hheard] at hfeed
    refine ⟨hfeed.symm, ?_⟩
    rw [converse_eq_listen, run_bind_ok h, run_pure]

/-- The two lines `'` and `#t` make one buffer, with the datum of the text. -/
theorem text_reads_as_its_lines_quotation :
    let text := "'\n#t\n"
    let s : Store := { scopes := #[{}], console := Console.ofText text }
    let t : Transcript := ⟨["'\n".toList, "#t\n".toList], [text], "", true⟩
    (parseAll text = .ok [Datum.quoted (.bool true)] ∧ (listen ⟨{}, 0⟩ 20 6 "").run' s = some t) ∧
      Delivers (feed "" (lines text.toList)) [Datum.quoted (.bool true)] ∧
      (t.taken, t.left) = feed "" (lines text.toList) := by
  intro text s t
  have hread : parseAll "'\n#t\n" = .ok [Datum.quoted (.bool true)] := by rfl
  have hlisten : (listen ⟨{}, 0⟩ 20 6 "").run' s = some t := by decide +kernel
  obtain ⟨hdelivers, -, hfeed⟩ := text_reads_as_its_lines text
  refine ⟨⟨hread, hlisten⟩, (hdelivers _).1 hread, ?_⟩
  unfold EStateM.run' at hlisten
  split at hlisten
  · rename_i u s' hrun
    obtain rfl := Option.some.inj hlisten
    exact (hfeed _ _ _ s _ s' rfl rfl (by decide) hrun rfl).1
  · contradiction

end CommandLine
end LittleScheme

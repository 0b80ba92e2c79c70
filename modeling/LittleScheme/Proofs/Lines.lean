import LittleScheme.CommandLine
import LittleScheme.Proofs.Continuation
import Mathlib.Data.List.Chain
import Mathlib.Data.List.Forall2

/-!
# Reading line by line

Lines are put into a buffer one after the other. A buffer that is incomplete is kept, any other is
read and the next line starts a new one. A text has the data of its buffers: at the end of a line the
reader of a complete text is where it was at the start, and a fault in the lines before stays one.
-/
namespace LittleScheme

namespace Reader

open Token (tokens Splits)

/-! ### Texts of several lines -/

/-- Reading goes on with nothing open after tokens that are complete. -/
theorem readAll_append_of_ok {stack : List Open} {ts : List Token} {ds : List Datum}
    (h : readAll stack ts = .ok ds) (us : List Token) :
    readAll stack (ts ++ us) = (readAll [] us).map (ds ++ ·) := by
  induction ts generalizing stack ds with
  | nil =>
      rw [readAll] at h
      split at h
      · rename_i hempty
        obtain rfl := List.isEmpty_iff.1 hempty
        obtain rfl := Except.ok.inj h
        cases hus : readAll [] us <;> simp [hus, Except.map]
      · simp at h
  | cons t ts ih =>
      rw [readAll] at h
      rw [List.cons_append, readAll]
      cases hstep : step stack t with
      | error e => simp [hstep] at h
      | ok p =>
          cases p with
          | datum d =>
              cases hrest : readAll [] ts with
              | error e => simp [hstep, hrest, Except.map] at h
              | ok ds' =>
                  simp only [hstep, hrest, Except.map, Except.ok.injEq] at h
                  subst h
                  rw [ih hrest]
                  cases readAll [] us <;> simp [Except.map]
          | within stack' =>
              simp only [hstep] at h
              exact ih h

/-- What the reader does not take stays in the way. -/
theorem readAll_append_of_error {stack : List Open} {ts : List Token} {e : Error}
    (h : readAll stack ts = .error e) (he : e ≠ .incomplete) (us : List Token) :
    readAll stack (ts ++ us) = .error e := by
  induction ts generalizing stack with
  | nil =>
      rw [readAll] at h
      split at h
      · simp at h
      · exact absurd (Except.error.inj h).symm he
  | cons t ts ih =>
      rw [readAll] at h
      rw [List.cons_append, readAll]
      cases hstep : step stack t with
      | error e' => simpa [hstep] using h
      | ok p =>
          cases p with
          | datum d =>
              cases hrest : readAll [] ts with
              | ok ds => simp [hstep, hrest, Except.map] at h
              | error e' =>
                  simp only [hstep, hrest, Except.map, Except.error.injEq] at h
                  subst h
                  simp [ih hrest, Except.map]
          | within stack' =>
              simp only [hstep] at h
              exact ih h

/-- Lines that read are followed by the data of the lines after them. -/
theorem readChars_line_of_ok {cs : List Char} {ds : List Datum}
    (h : readChars (cs ++ ['\n']) = .ok ds) (more : List Char) :
    readChars (cs ++ '\n' :: more) = (readChars more).map (ds ++ ·) := by
  obtain ⟨ts, hsplits⟩ | ⟨fault, hfault⟩ | hopen := Token.line_cases cs
  · have hline : readAll [] ts = .ok ds := by rwa [readChars_of_splits (hsplits [])] at h
    rw [readChars, (hsplits more).tokens_eq, readChars]
    cases hmore : tokens more with
    | error e => rfl
    | ok us => exact readAll_append_of_ok hline us
  · simp [readChars, hfault, bind, Except.bind] at h
  · simp [readChars, hopen, bind, Except.bind] at h

/-- Lines with a fault make no text that reads. -/
theorem readChars_line_of_error {cs : List Char} {e : Error}
    (h : readChars (cs ++ ['\n']) = .error e) (he : e ≠ .incomplete) (more : List Char)
    (ds : List Datum) : readChars (cs ++ '\n' :: more) ≠ .ok ds := by
  obtain ⟨ts, hsplits⟩ | ⟨fault, hfault⟩ | hopen := Token.line_cases cs
  · have hline : readAll [] ts = .error e := by rwa [readChars_of_splits (hsplits [])] at h
    rw [readChars, (hsplits more).tokens_eq]
    cases hmore : tokens more with
    | error e => simp [Except.map, bind, Except.bind]
    | ok us => simp [Except.map, bind, Except.bind, readAll_append_of_error hline he us]
  · simp [readChars, hfault, bind, Except.bind]
  · rw [readChars, hopen] at h
    exact absurd (Except.error.inj h).symm he

end Reader

namespace CommandLine

open Reader (parseAll readChars)

/-! ### Lines and buffers -/

/-- The lines of a text, each with its line end. The last may lack one. -/
def lines : List Char → List (List Char)
  | [] => []
  | c :: cs =>
      if c = '\n' then ['\n'] :: lines cs
      else
        match lines cs with
        | [] => [[c]]
        | line :: rest => (c :: line) :: rest

/-- The buffers that are taken when lines are put in one after the other, and what is left in the
buffer. A buffer is kept as long as it is incomplete. -/
def feed (buffer : String) : List (List Char) → List String × String
  | [] => ([], buffer)
  | line :: rest =>
      let buffer := buffer ++ String.ofList line
      match parseAll buffer with
      | .error .incomplete => feed buffer rest
      | _ => (buffer :: (feed "" rest).1, (feed "" rest).2)

theorem feed_cons_of_incomplete {buffer : String} {line : List Char}
    (h : parseAll (buffer ++ String.ofList line) = .error .incomplete) (rest : List (List Char)) :
    feed buffer (line :: rest) = feed (buffer ++ String.ofList line) rest := by
  simp only [feed, h]

theorem feed_cons_of_ne_incomplete {buffer : String} {line : List Char}
    (h : parseAll (buffer ++ String.ofList line) ≠ .error .incomplete) (rest : List (List Char)) :
    feed buffer (line :: rest) =
      ((buffer ++ String.ofList line) :: (feed "" rest).1, (feed "" rest).2) := by
  rw [feed]
  split
  · contradiction
  · rfl

/-- The characters end with a line end. -/
def EndsLine (cs : List Char) : Prop := ∃ xs, cs = xs ++ ['\n']

/-- Every line that another one follows ends with a line end. -/
def Cut (ls : List (List Char)) : Prop := ls.IsChain fun line _ => EndsLine line

theorem flatten_lines (cs : List Char) : (lines cs).flatten = cs := by
  fun_induction lines cs with
  | case1 => rfl
  | case2 cs ih => simp [ih]
  | case3 c cs hc hnil ih => simp [hnil] at ih; simp [ih]
  | case4 c cs hc line rest hcons ih => simp [hcons] at ih; simp [← ih]

theorem cut_lines (cs : List Char) : Cut (lines cs) := by
  fun_induction lines cs with
  | case1 => exact .nil
  | case2 cs ih => exact ih.cons fun line _ => ⟨[], rfl⟩
  | case3 c cs hc hnil ih => exact .singleton _
  | case4 c cs hc line rest hcons ih =>
      rw [hcons] at ih
      cases rest with
      | nil => exact .singleton _
      | cons next rest =>
          obtain ⟨⟨xs, rfl⟩, hrest⟩ := List.isChain_cons_cons.1 ih
          exact .cons_cons ⟨c :: xs, rfl⟩ hrest

/-- What the first lines of a text are: nothing, or all of it, or a text up to a line end. -/
theorem Cut.take {ls : List (List Char)} (h : Cut ls) (n : Nat) :
    (ls.take n).flatten = [] ∨ ls.drop n = [] ∨ EndsLine (ls.take n).flatten := by
  induction ls generalizing n with
  | nil => simp
  | cons line rest ih =>
      cases n with
      | zero => simp
      | succ n =>
          cases rest with
          | nil => simp
          | cons next rest =>
              obtain ⟨⟨xs, rfl⟩, hrest⟩ := List.isChain_cons_cons.1 h
              obtain hnil | hall | ⟨ys, hys⟩ := ih hrest n
              · exact .inr (.inr ⟨xs, by simp [hnil]⟩)
              · exact .inr (.inl (by simpa using hall))
              · exact .inr (.inr ⟨xs ++ '\n' :: ys, by simp [hys]⟩)

/-- The data after a complete buffer are those of the lines that are left. -/
theorem readChars_append_of_ok {cs more : List Char} {ds : List Datum} (h : readChars cs = .ok ds)
    (hcs : more = [] ∨ EndsLine cs) : readChars (cs ++ more) = (readChars more).map (ds ++ ·) := by
  obtain rfl | ⟨xs, rfl⟩ := hcs
  · have hnil : readChars [] = .ok [] := rfl
    simp [h, hnil, Except.map]
  · simpa using Reader.readChars_line_of_ok h more

theorem readChars_append_of_error {cs more : List Char} {e : Error} (h : readChars cs = .error e)
    (he : e ≠ .incomplete) (hcs : more = [] ∨ EndsLine cs) (ds : List Datum) :
    readChars (cs ++ more) ≠ .ok ds := by
  obtain rfl | ⟨xs, rfl⟩ := hcs
  · simp [h]
  · simpa using Reader.readChars_line_of_error h he more ds

/-- Every buffer reads, nothing is left over, and the data of the buffers are `ds`. -/
def Delivers (fed : List String × String) (ds : List Datum) : Prop :=
  fed.2 = "" ∧
    ∃ dss, List.Forall₂ (fun buffer ds => parseAll buffer = .ok ds) fed.1 dss ∧ dss.flatten = ds

theorem delivers_cons {buffer left : String} {taken : List String} {ds : List Datum} :
    Delivers (buffer :: taken, left) ds ↔
      ∃ ds₁ ds₂, parseAll buffer = .ok ds₁ ∧ Delivers (taken, left) ds₂ ∧ ds₁ ++ ds₂ = ds := by
  constructor
  · rintro ⟨hleft, dss, hread, rfl⟩
    obtain ⟨ds₁, dss, hbuffer, htaken, rfl⟩ := List.forall₂_cons_left_iff.1 hread
    exact ⟨ds₁, dss.flatten, hbuffer, ⟨hleft, dss, htaken, rfl⟩, by simp⟩
  · rintro ⟨ds₁, ds₂, hbuffer, ⟨hleft, dss, htaken, rfl⟩, rfl⟩
    exact ⟨hleft, ds₁ :: dss, .cons hbuffer htaken, by simp⟩

/-- The buffer is empty, or is kept and can go on with the lines that come. -/
def Kept (buffer : String) (ls : List (List Char)) : Prop :=
  buffer = "" ∨ parseAll buffer = .error .incomplete ∧ (ls = [] ∨ EndsLine buffer.toList)

theorem Cut.endsLine {line : List Char} {rest : List (List Char)} (h : Cut (line :: rest))
    (buffer : String) : rest = [] ∨ EndsLine (buffer ++ String.ofList line).toList := by
  cases rest with
  | nil => exact .inl rfl
  | cons next rest =>
      obtain ⟨⟨xs, rfl⟩, -⟩ := List.isChain_cons_cons.1 h
      exact .inr ⟨buffer.toList ++ xs, by simp⟩

/-- The lines that come, put after the buffer, read as the buffers that they make. -/
theorem readChars_eq_ok_iff_delivers {ls : List (List Char)} (hcut : Cut ls) (buffer : String)
    (hbuffer : Kept buffer ls) (ds : List Datum) :
    readChars (buffer.toList ++ ls.flatten) = .ok ds ↔ Delivers (feed buffer ls) ds := by
  induction ls generalizing buffer ds with
  | nil =>
      obtain rfl | ⟨hopen, -⟩ := hbuffer
      · have hempty : readChars [] = .ok [] := rfl
        simp [feed, Delivers, hempty]
      · have hne : buffer ≠ "" := by
          rintro rfl
          have hempty : parseAll "" = .ok [] := rfl
          simp [hempty] at hopen
        rw [Reader.parseAll_eq_readChars] at hopen
        simp [feed, Delivers, hopen, hne]
  | cons line rest ih =>
      have hrest : Cut rest := List.IsChain.tail hcut
      have hline := hcut.endsLine buffer
      have hends := hline.imp_left fun hnil => congrArg List.flatten hnil
      have htext : buffer.toList ++ (line :: rest).flatten =
          (buffer ++ String.ofList line).toList ++ rest.flatten := by simp
      rw [htext]
      cases hread : parseAll (buffer ++ String.ofList line) with
      | ok ds₁ =>
          have hfresh := ih hrest "" (.inl rfl)
          rw [readChars_append_of_ok hread hends, feed_cons_of_ne_incomplete (by simp [hread]),
            delivers_cons, hread]
          constructor
          · intro hmore
            cases hlater : readChars rest.flatten with
            | error e => simp [hlater, Except.map] at hmore
            | ok ds₂ =>
                simp only [hlater, Except.map, Except.ok.injEq] at hmore
                exact ⟨ds₁, ds₂, rfl, (hfresh ds₂).1 hlater, hmore⟩
          · rintro ⟨_, ds₂, ⟨⟩, hdelivers, rfl⟩
            have hlater : readChars rest.flatten = .ok ds₂ := (hfresh ds₂).2 hdelivers
            simp [hlater, Except.map]
      | error e =>
          by_cases he : e = .incomplete
          · subst he
            rw [feed_cons_of_incomplete hread]
            exact ih hrest _ (.inr ⟨hread, hline⟩) ds
          · have hfault := readChars_append_of_error hread he hends ds
            rw [feed_cons_of_ne_incomplete (by simpa [hread] using he), delivers_cons, hread]
            simpa using hfault

/-- No fault is found in the first lines of a text that reads. -/
theorem readChars_lines_ne_malformed {cs : List Char} {ds : List Datum} (h : readChars cs = .ok ds)
    (n : Nat) (fault : SyntaxFault) :
    readChars ((lines cs).take n).flatten ≠ .error (.malformed fault) := by
  intro hfault
  have hcs : cs = ((lines cs).take n).flatten ++ ((lines cs).drop n).flatten := by
    rw [← List.flatten_append, List.take_append_drop, flatten_lines]
  obtain hnil | hends := (cut_lines cs).take n
  · have hempty : readChars [] = .ok [] := rfl
    simp [hnil, hempty] at hfault
  · have hends := hends.imp_left fun hall => congrArg List.flatten hall
    rw [hcs] at h
    exact readChars_append_of_error hfault (by simp) hends ds h

end CommandLine
end LittleScheme

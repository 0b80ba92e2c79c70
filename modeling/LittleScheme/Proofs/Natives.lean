import LittleScheme.Proofs.Arguments

/-!
# Native procedures on related values

Called with related arguments in similar stores, a native procedure does the same on both sides. The
cases follow the families; inside a family, every wrong number of arguments is one case.
-/
namespace LittleScheme

theorem forall₂_concat {α β : Type} {R : α → β → Prop} {as : List α} {a : α} {bs : List β}
    (h : List.Forall₂ R (as ++ [a]) bs) :
    ∃ bs' b, List.Forall₂ R as bs' ∧ R a b ∧ bs = bs' ++ [b] := by
  induction as generalizing bs with
  | nil =>
      rcases h with _ | ⟨hab, _ | _⟩
      exact ⟨[], _, .nil, hab, rfl⟩
  | cons c as ih =>
      rcases h with _ | ⟨hcd, h⟩
      obtain ⟨bs', b, has, hab, rfl⟩ := ih h
      exact ⟨_ :: bs', b, .cons hcd has, hab, rfl⟩

theorem forall₂_flatten {α β : Type} {R : α → β → Prop} {as : List (List α)} {bs : List (List β)}
    (h : List.Forall₂ (List.Forall₂ R) as bs) : List.Forall₂ R as.flatten bs.flatten := by
  induction h with
  | nil => exact .nil
  | cons hab _ ih => exact List.rel_append hab ih

theorem forall₂_getD {α β : Type} {R : α → β → Prop} {as : List α} {bs : List β} {a : α} {b : β}
    (h : List.Forall₂ R as bs) (hab : R a b) (i : Nat) : R (as.getD i a) (bs.getD i b) := by
  induction h generalizing i with
  | nil => exact hab
  | cons hcd _ ih =>
      cases i with
      | zero => exact hcd
      | succ i => exact ih i

theorem forall₂_replicate {α β : Type} {R : α → β → Prop} {a : α} {b : β} (h : R a b) (n : Nat) :
    List.Forall₂ R (List.replicate n a) (List.replicate n b) := by
  induction n with
  | zero => exact .nil
  | succ n ih => exact .cons h ih

namespace Native

/-- The pair that a call changes: the target of `set-car!` or `set-cdr!`. -/
def target? : Native → List Value → Option Ref
  | .lists .setCar, [.pair r, _] => some r
  | .lists .setCdr, [.pair r, _] => some r
  | _, _ => none

/-- What a call that changes a pair does. -/
theorem run_call_of_target? {p : Native} {args : List Value} {r : Ref} (h : target? p args = some r) :
    ∃ v, args = [.pair r, v] ∧ ∀ s,
      (p.call args).run s = .ok (.value .void) (s.setCar r v) ∨
      (p.call args).run s = .ok (.value .void) (s.setCdr r v) := by
  unfold target? at h
  split at h
  · obtain rfl := Option.some.inj h
    exact ⟨_, rfl, fun s => .inl rfl⟩
  · obtain rfl := Option.some.inj h
    exact ⟨_, rfl, fun s => .inr rfl⟩
  · contradiction

open Value (Related)
open Argument

variable {ρ : Renaming} {v w v' w' : Value} {vs ws : List Value}

namespace Numeric

theorem fold_agree (op : Number → Number → Number.Result) (first : Number) (rest : List Number) :
    Agree ρ (fold op first rest) (fold op first rest) Related :=
  (Agree.foldlM_same fun _ _ _ => Eval.ofArithmetic_agree _).map_same fun _ _ => .number _

theorem foldFrom_agree (name : String) (alone : Number → Number.Result)
    (op : Number → Number → Number.Result) (hv : Related ρ v w)
    (hvs : List.Forall₂ (Related ρ) vs ws) :
    Agree ρ (foldFrom name alone op v vs) (foldFrom name alone op w ws) Related := by
  refine (number_agree name hv).bind_same fun ρ' n hle => ?_
  cases hvs with
  | nil => exact (Eval.ofArithmetic_agree _).map_same fun _ _ => .number _
  | cons hv hvs =>
      have hrest := (hvs.cons hv).imp fun _ _ hv => hv.mono hle
      exact (numbers_agree name hrest).bind_same fun _ _ _ => fold_agree op _ _

theorem binary_agree (name : String) (op : Number → Number → Number.Result) (hv : Related ρ v w)
    (hv' : Related ρ v' w') : Agree ρ (binary name op v v') (binary name op w w') Related := by
  refine (number_agree name hv).bind_same fun ρ' a hle => ?_
  refine (number_agree name (hv'.mono hle)).bind_same fun _ b _ => ?_
  exact (Eval.ofArithmetic_agree _).map_same fun _ _ => .number _

theorem ordered_agree (name : String) (orders : List Ordering)
    (hvs : List.Forall₂ (Related ρ) vs ws) :
    Agree ρ (ordered name orders vs) (ordered name orders ws) Related :=
  (numbers_agree name hvs).map_same fun _ _ => .bool _

theorem extremum_agree (name : String) (keep : Ordering) (hv : Related ρ v w)
    (hvs : List.Forall₂ (Related ρ) vs ws) :
    Agree ρ (extremum name keep v vs) (extremum name keep w ws) Related := by
  refine (numbers_agree name (hvs.cons hv)).bind_same fun ρ' ns _ => ?_
  cases ns with
  | nil => exact .pure .nil
  | cons n ns => exact .pure (.number _)

theorem rounding_agree (name : String) (rule : Inexact.Rounding) (hv : Related ρ v w) :
    Agree ρ (rounding name rule v) (rounding name rule w) Related := by
  refine (number_agree name hv).bind_same fun ρ' n _ => ?_
  cases n with
  | integer n => exact .pure (.number _)
  | real x => exact .pure (.number _)

/-- A number and what is computed from it. -/
theorem unary_agree (name : String) (op : Number → Number.Result) (hv : Related ρ v w) :
    Agree ρ (do return .number (← Eval.ofArithmetic (op (← number name v))))
      (do return .number (← Eval.ofArithmetic (op (← number name w)))) Related :=
  (number_agree name hv).bind_same fun _ _ _ =>
    (Eval.ofArithmetic_agree _).map_same fun _ _ => .number _

theorem isNumber_agree (hv : Related ρ v w) :
    Agree ρ (run .isNumber [v]) (run .isNumber [w]) Related := by
  cases hv <;> exact .pure (.bool _)

theorem isInteger_agree (hv : Related ρ v w) :
    Agree ρ (run .isInteger [v]) (run .isInteger [w]) Related := by
  cases hv <;> exact .pure (.bool _)

theorem run_agree (p : Numeric) (hvs : List.Forall₂ (Related ρ) vs ws) :
    Agree ρ (p.run vs) (p.run ws) Related := by
  rcases hvs with _ | @⟨v, w, vs, ws, hv, hrest⟩
  · cases p with
    | add => exact (numbers_agree "+" .nil).bind_same fun _ _ _ => fold_agree _ _ _
    | mul => exact (numbers_agree "*" .nil).bind_same fun _ _ _ => fold_agree _ _ _
    | equal | less | greater | lessEqual | greaterEqual => exact ordered_agree _ _ .nil
    | _ => exact wrongCount_agree .nil
  · cases p with
    | add => exact (numbers_agree "+" (hrest.cons hv)).bind_same fun _ _ _ => fold_agree _ _ _
    | mul => exact (numbers_agree "*" (hrest.cons hv)).bind_same fun _ _ _ => fold_agree _ _ _
    | sub => exact foldFrom_agree "-" _ _ hv hrest
    | div => exact foldFrom_agree "/" _ _ hv hrest
    | equal | less | greater | lessEqual | greaterEqual => exact ordered_agree _ _ (hrest.cons hv)
    | min => exact extremum_agree "min" _ hv hrest
    | max => exact extremum_agree "max" _ hv hrest
    | quotient | remainder | modulo | expt =>
        rcases hrest with _ | ⟨hv', _ | ⟨hv'', hrest⟩⟩
        · exact wrongCount_agree (.cons hv .nil)
        · exact binary_agree _ _ hv hv'
        · exact wrongCount_agree (.cons hv (.cons hv' (.cons hv'' hrest)))
    | abs | toExact =>
        rcases hrest with _ | ⟨hv', hrest⟩
        · exact unary_agree _ _ hv
        · exact wrongCount_agree (.cons hv (.cons hv' hrest))
    | floor | ceiling | round | truncate =>
        rcases hrest with _ | ⟨hv', hrest⟩
        · exact rounding_agree _ _ hv
        · exact wrongCount_agree (.cons hv (.cons hv' hrest))
    | isNumber | isReal =>
        rcases hrest with _ | ⟨hv', hrest⟩
        · exact isNumber_agree hv
        · exact wrongCount_agree (.cons hv (.cons hv' hrest))
    | isInteger =>
        rcases hrest with _ | ⟨hv', hrest⟩
        · exact isInteger_agree hv
        · exact wrongCount_agree (.cons hv (.cons hv' hrest))
    | isZero =>
        rcases hrest with _ | ⟨hv', hrest⟩
        · exact (number_agree "zero?" hv).map_same fun _ _ => .bool _
        · exact wrongCount_agree (.cons hv (.cons hv' hrest))
    | toInexact =>
        rcases hrest with _ | ⟨hv', hrest⟩
        · exact (number_agree "exact->inexact" hv).map_same fun _ _ => .number _
        · exact wrongCount_agree (.cons hv (.cons hv' hrest))
    | sqrt =>
        rcases hrest with _ | ⟨hv', hrest⟩
        · exact (number_agree "sqrt" hv).map_same fun _ _ => .number _
        · exact wrongCount_agree (.cons hv (.cons hv' hrest))

end Numeric

namespace Lists

theorem pairRef_agree (name : String) (hv : Related ρ v w) :
    Agree ρ (pairRef name v) (pairRef name w) fun ρ' => ρ' .pair := by
  have hv' := hv
  cases hv with
  | pair hr => exact .pure hr
  | _ => exact wrongType_agree name _ hv'

theorem tailAfter?_agree {s t : Store} (hs : Similar ρ s t) (n : Nat) (hv : Related ρ v w) :
    Option.Rel (Related ρ) (tailAfter? s n v) (tailAfter? t n w) := by
  induction n generalizing v w with
  | zero => exact .some hv
  | succ n ih =>
      cases hv with
      | pair hr => exact ih (hs.cdr hr)
      | _ => exact .none

theorem joined_agree (hvs : List.Forall₂ (Related ρ) vs ws) :
    Agree ρ (joined vs) (joined ws) Related := by
  unfold joined
  rcases List.eq_nil_or_concat' vs with rfl | ⟨init, last, rfl⟩
  · cases hvs
    exact .pure .nil
  · obtain ⟨init', last', hinit, hlast, rfl⟩ := forall₂_concat hvs
    rw [List.getLast?_concat, List.getLast?_concat, List.dropLast_concat, List.dropLast_concat]
    have hitems := Agree.mapM_related (R := fun ρ' => List.Forall₂ (Related ρ')) hinit
      (fun _ _ _ _ hle h => h.imp fun _ _ hv => hv.mono hle)
      fun _ _ _ hv => properList_agree "append" .properList hv
    refine hitems.bind fun ρ' as bs hle has => ?_
    exact .make fun s t hs => hs.listWithTail (forall₂_flatten has) (hlast.mono hle)

theorem tailOf_agree (hv : Related ρ v w) (hv' : Related ρ v' w') :
    Agree ρ (tailOf v v') (tailOf w w') Related := by
  refine (index_agree "list-tail" longest hv').bind_same fun ρ' n hle => ?_
  refine .bind (Q := fun ρ' => Option.Rel (Related ρ'))
    (.ask fun s t hs => tailAfter?_agree hs n (hv.mono hle)) fun ρ'' x y hle' hxy => ?_
  cases hxy with
  | some htail => exact .pure htail
  | none =>
      exact (Eval.written_agree (hv.mono (hle.trans hle'))).bind_same fun _ _ _ => .raise _

/-- The procedures of one argument. -/
theorem run_one_agree (p : Lists) (hv : Related ρ v w) :
    Agree ρ (p.run [v]) (p.run [w]) Related := by
  cases p with
  | car =>
      exact (pairRef_agree "car" hv).bind fun ρ' a b _ hr => .ask fun s t hs => hs.car hr
  | cdr =>
      exact (pairRef_agree "cdr" hv).bind fun ρ' a b _ hr => .ask fun s t hs => hs.cdr hr
  | list => exact .make fun s t hs => hs.list (.cons hv .nil)
  | append => exact joined_agree (.cons hv .nil)
  | length =>
      refine (properList_agree "length" .properList hv).bind fun ρ' as bs _ has => ?_
      rw [has.length_eq]
      exact .pure (.number _)
  | reverse =>
      refine (properList_agree "reverse" .properList hv).bind fun ρ' as bs _ has => ?_
      exact .make fun s t hs => hs.list (List.rel_reverse has)
  | isNull => exact .pure (hv.isNil_eq ▸ .bool _)
  | isPair => exact .pure (hv.isPair_eq ▸ .bool _)
  | isList => exact (Agree.ask fun s t hs => hs.isList_eq hv).map_same fun _ _ => .bool _
  | not => exact .pure (hv.isTrue_eq ▸ .bool _)
  | _ => exact wrongCount_agree (.cons hv .nil)

/-- The procedures of two arguments. -/
theorem run_two_agree {p : Lists} (hp : target? (.lists p) [v, v'] = none) (hv : Related ρ v w)
    (hv' : Related ρ v' w') : Agree ρ (p.run [v, v']) (p.run [w, w']) Related := by
  cases p with
  | cons => exact .make fun s t hs => hs.cons hv hv'
  | setCar =>
      have hpair := hv
      cases hv with
      | pair hr => exact absurd hp (Option.some_ne_none _)
      | _ => exact wrongType_agree _ _ hpair
  | setCdr =>
      have hpair := hv
      cases hv with
      | pair hr => exact absurd hp (Option.some_ne_none _)
      | _ => exact wrongType_agree _ _ hpair
  | list => exact .make fun s t hs => hs.list (.cons hv (.cons hv' .nil))
  | append => exact joined_agree (.cons hv (.cons hv' .nil))
  | listTail => exact tailOf_agree hv hv'
  | eq | eqv =>
      intro s t hs
      exact Agree.pure (hs.same_eq hv hv' ▸ .bool _) s t hs
  | equal => exact (Agree.ask fun s t hs => hs.equal hv hv').map_same fun _ _ => .bool _
  | _ => exact wrongCount_agree (.cons hv (.cons hv' .nil))

theorem run_agree {p : Lists} (hp : target? (.lists p) vs = none)
    (hvs : List.Forall₂ (Related ρ) vs ws) : Agree ρ (p.run vs) (p.run ws) Related := by
  rcases hvs with _ | ⟨hv, _ | ⟨hv', _ | ⟨hv'', hrest⟩⟩⟩
  · cases p with
    | list => exact .make fun s t hs => hs.list .nil
    | append => exact joined_agree .nil
    | _ => exact wrongCount_agree .nil
  · exact run_one_agree p hv
  · exact run_two_agree hp hv hv'
  · cases p with
    | list => exact .make fun s t hs => hs.list (.cons hv (.cons hv' (.cons hv'' hrest)))
    | append => exact joined_agree (.cons hv (.cons hv' (.cons hv'' hrest)))
    | _ => exact wrongCount_agree (.cons hv (.cons hv' (.cons hv'' hrest)))

end Lists

namespace Texts

theorem charAt_agree (hv : Related ρ v w) (hv' : Related ρ v' w') :
    Agree ρ (charAt v v') (charAt w w') Related := by
  refine (string_agree "string-ref" hv).bind_same fun ρ' text hle => ?_
  refine (index_agree "string-ref" _ (hv'.mono hle)).bind_same fun ρ'' i _ => ?_
  cases text.toList[i]? with
  | some c => exact .pure (.char c)
  | none => exact .raise _

theorem slice_agree (hv : Related ρ v w) (hv' : Related ρ v' w') {stop stop' : Option Value}
    (hstop : Option.Rel (Related ρ) stop stop') :
    Agree ρ (slice v v' stop) (slice w w' stop') Related := by
  refine (string_agree "substring" hv).bind_same fun ρ₁ text hle₁ => ?_
  refine (index_agree "substring" _ (hv'.mono hle₁)).bind_same fun ρ₂ start hle₂ => ?_
  cases hstop with
  | some hv'' =>
      refine (index_agree "substring" _ (hv''.mono (hle₁.trans hle₂))).bind_same fun ρ₃ stop _ => ?_
      dsimp only
      split
      · exact .raise _
      · exact .make fun s t hs => hs.newString _
  | none =>
      refine (Agree.same _).bind_same fun ρ₃ stop _ => ?_
      dsimp only
      split
      · exact .raise _
      · exact .make fun s t hs => hs.newString _

theorem ofCharacters_agree (hv : Related ρ v w) :
    Agree ρ (ofCharacters v) (ofCharacters w) Related := by
  refine (properList_agree "list->string" .characterList hv).bind fun ρ' as bs _ has => ?_
  refine (Agree.mapM_same has fun _ _ _ hv => char_agree "list->string" hv).bind_same fun _ cs _ => ?_
  exact .make fun s t hs => hs.newString _

theorem charOfInteger_agree (hv : Related ρ v w) :
    Agree ρ (charOfInteger v) (charOfInteger w) Related := by
  refine (integer_agree "integer->char" hv).bind_same fun ρ' n _ => ?_
  cases if 0 ≤ n then Reader.charOfCode? n.toNat else none with
  | some c => exact .pure (.char c)
  | none => exact .raise _

theorem symbolToString_agree (hv : Related ρ v w) :
    Agree ρ (run .symbolToString [v]) (run .symbolToString [w]) Related := by
  have hv' := hv
  cases hv with
  | symbol name => exact .make fun s t hs => hs.newString _
  | keyword k => exact .make fun s t hs => hs.newString _
  | _ => exact wrongType_agree _ _ hv'

theorem stringToNumber_agree (hv : Related ρ v w) :
    Agree ρ (run .stringToNumber [v]) (run .stringToNumber [w]) Related := by
  refine (string_agree "string->number" hv).bind_same fun ρ' text _ => ?_
  cases Number.parse? (String.ofList (Text.trim text.toList)) with
  | some n => exact .pure (.number n)
  | none => exact .pure (.bool false)

theorem symbolOf_related (name : String) : Related ρ (symbolOf name) (symbolOf name) := by
  unfold symbolOf
  cases Keyword.ofName? name with
  | some k => exact .keyword k
  | none => exact .symbol name

theorem chars_related (cs : List Char) :
    List.Forall₂ (Related ρ) (cs.map Value.char) (cs.map Value.char) :=
  List.forall₂_same.2 fun v hv => by
    obtain ⟨c, -, rfl⟩ := List.mem_map.1 hv
    exact .char c

/-- The procedures that take any number of arguments. -/
theorem run_many_agree {p : Texts} (hp : p ∈ [stringAppend, stringEqual, stringLess, charEqual,
    charLess]) (hvs : List.Forall₂ (Related ρ) vs ws) : Agree ρ (p.run vs) (p.run ws) Related := by
  simp only [List.mem_cons, List.not_mem_nil, or_false] at hp
  rcases hp with rfl | rfl | rfl | rfl | rfl
  · refine (Agree.mapM_same hvs fun _ _ _ hv => string_agree "string-append" hv).bind_same
      fun ρ' texts _ => ?_
    exact .make fun s t hs => hs.newString _
  · exact (Agree.mapM_same hvs fun _ _ _ hv => string_agree "string=?" hv).map_same
      fun _ _ => .bool _
  · exact (Agree.mapM_same hvs fun _ _ _ hv => string_agree "string<?" hv).map_same
      fun _ _ => .bool _
  · exact (Agree.mapM_same hvs fun _ _ _ hv => char_agree "char=?" hv).map_same
      fun _ _ => .bool _
  · exact (Agree.mapM_same hvs fun _ _ _ hv => char_agree "char<?" hv).map_same
      fun _ _ => .bool _

/-- The procedures of one argument. -/
theorem run_one_agree (p : Texts) (hv : Related ρ v w) :
    Agree ρ (p.run [v]) (p.run [w]) Related := by
  cases p with
  | isString | isSymbol | isChar => cases hv <;> exact .pure (.bool _)
  | stringLength => exact (string_agree "string-length" hv).map_same fun _ _ => .number _
  | stringToSymbol => exact (string_agree "string->symbol" hv).map_same fun _ _ => symbolOf_related _
  | symbolToString => exact symbolToString_agree hv
  | stringToNumber => exact stringToNumber_agree hv
  | numberToString =>
      exact (number_agree "number->string" hv).bind_same fun _ n _ =>
        .make fun s t hs => hs.newString _
  | stringToList =>
      exact (string_agree "string->list" hv).bind_same fun _ text _ =>
        .make fun s t hs => hs.list (chars_related _)
  | listToString => exact ofCharacters_agree hv
  | charToInteger => exact (char_agree "char->integer" hv).map_same fun _ _ => .number _
  | integerToChar => exact charOfInteger_agree hv
  | stringAppend | stringEqual | stringLess | charEqual | charLess =>
      exact run_many_agree (by simp) (.cons hv .nil)
  | _ => exact wrongCount_agree (.cons hv .nil)

theorem run_agree (p : Texts) (hvs : List.Forall₂ (Related ρ) vs ws) :
    Agree ρ (p.run vs) (p.run ws) Related := by
  rcases hvs with _ | ⟨hv, _ | ⟨hv', _ | ⟨hv'', _ | ⟨hlast, hrest⟩⟩⟩⟩
  · cases p with
    | stringAppend | stringEqual | stringLess | charEqual | charLess =>
        exact run_many_agree (by simp) .nil
    | _ => exact wrongCount_agree .nil
  · exact run_one_agree p hv
  · cases p with
    | stringRef => exact charAt_agree hv hv'
    | substring => exact slice_agree hv hv' .none
    | stringAppend | stringEqual | stringLess | charEqual | charLess =>
        exact run_many_agree (by simp) (.cons hv (.cons hv' .nil))
    | _ => exact wrongCount_agree (.cons hv (.cons hv' .nil))
  · cases p with
    | substring => exact slice_agree hv hv' (.some hv'')
    | stringAppend | stringEqual | stringLess | charEqual | charLess =>
        exact run_many_agree (by simp) (.cons hv (.cons hv' (.cons hv'' .nil)))
    | _ => exact wrongCount_agree (.cons hv (.cons hv' (.cons hv'' .nil)))
  · have hall := List.Forall₂.cons hv (.cons hv' (.cons hv'' (.cons hlast hrest)))
    cases p with
    | stringAppend | stringEqual | stringLess | charEqual | charLess =>
        exact run_many_agree (by simp) hall
    | _ => exact wrongCount_agree hall

end Texts

namespace Vectors

theorem vectorArg_agree (name : String) (hv : Related ρ v w) :
    Agree ρ (vectorArg name v) (vectorArg name w) fun ρ' => ρ' .vector := by
  have hv' := hv
  cases hv with
  | vector hr => exact .pure hr
  | _ => exact wrongType_agree name _ hv'

theorem bytesArg_agree (name : String) (hv : Related ρ v w) :
    Agree ρ (bytesArg name v) (bytesArg name w) fun ρ' => ρ' .bytes := by
  have hv' := hv
  cases hv with
  | bytes hr => exact .pure hr
  | _ => exact wrongType_agree name _ hv'

theorem heldIndex_agree (name : String) (bound : Nat) (hv : Related ρ v w)
    (hv' : Related ρ v' w') :
    Agree ρ (heldIndex name v bound v') (heldIndex name w bound w') Same := by
  have hindex : ∀ ρ', ρ.Le ρ' → Agree ρ' (index name bound v') (index name bound w') Same :=
    fun ρ' hle => index_agree name bound (hv'.mono hle)
  have hmentions : Agree ρ (Eval.ask fun s => s.mentions v v') (Eval.ask fun s => s.mentions w w')
      Same := .ask fun s t hs => hs.mentions hv hv'
  have hposition : Agree ρ
      (do if ← Eval.ask fun s => s.mentions v v' then throw .aborted
          index name bound v')
      (do if ← Eval.ask fun s => s.mentions w w' then throw .aborted
          index name bound w') Same := by
    refine hmentions.bind_same fun ρ' b hle => ?_
    cases b with
    | true => exact .throw _
    | false => exact hindex ρ' hle
  cases hv' with
  | number n => exact hindex ρ (.refl ρ)
  | _ => exact hposition

theorem element_agree (hv : Related ρ v w) (hv' : Related ρ v' w') :
    Agree ρ (element v v') (element w w') Related := by
  refine (vectorArg_agree "vector-ref" hv).bind fun ρ₁ a b hle₁ hr => ?_
  refine .bind (Q := fun ρ' x y => List.Forall₂ (Related ρ') x.toList y.toList)
    (.ask fun s t hs => hs.vector hr) fun ρ₂ x y hle₂ hxy => ?_
  rw [show x.size = y.size by simpa using hxy.length_eq]
  refine (index_agree "vector-ref" _ (hv'.mono (hle₁.trans hle₂))).bind_same fun ρ₃ i hle₃ => ?_
  refine .pure ?_
  have hget := forall₂_getD (hxy.imp fun _ _ hv => hv.mono hle₃) (Related.nil) i
  simpa [Array.getD_eq_getD_getElem?, List.getD_eq_getElem?_getD] using hget

theorem setElement_agree (hv : Related ρ v w) (hv' : Related ρ v' w') {x y : Value}
    (hx : Related ρ x y) : Agree ρ (setElement v v' x) (setElement w w' y) Related := by
  refine (vectorArg_agree "vector-set!" hv).bind fun ρ₁ a b hle₁ hr => ?_
  refine (Agree.ask fun s t hs => ?_).bind_same fun ρ₂ size hle₂ => ?_
  · simpa [Same] using (hs.vector hr).length_eq
  have hle := hle₁.trans hle₂
  refine (heldIndex_agree "vector-set!" size (hv.mono hle) (hv'.mono hle)).bind_same
    fun ρ₃ i hle₃ => ?_
  refine (Agree.update
    (fun s t hs => hs.setVector (hle₃ (hle₂ hr)) i (hx.mono (hle.trans hle₃)))
    (fun s => s.grows_setVector a i x) fun t => t.grows_setVector b i y).bind fun _ _ _ _ _ => ?_
  exact .pure .void

theorem filled_agree (hv : Related ρ v w) (hv' : Related ρ v' w') :
    Agree ρ (filled v v') (filled w w') Related := by
  refine (length_agree "make-vector" hv).bind_same fun ρ' n hle => ?_
  refine .make fun s t hs => hs.newVector ?_
  rw [Array.toList_replicate, Array.toList_replicate]
  exact forall₂_replicate (hv'.mono hle) n

theorem byteAt_agree (hv : Related ρ v w) (hv' : Related ρ v' w') :
    Agree ρ (byteAt v v') (byteAt w w') Related := by
  refine (bytesArg_agree "bytevector-u8-ref" hv).bind fun ρ₁ a b hle₁ hr => ?_
  refine (Agree.ask fun s t hs => hs.bytes hr).bind_same fun ρ₂ items hle₂ => ?_
  refine (index_agree "bytevector-u8-ref" _ (hv'.mono (hle₁.trans hle₂))).map_same fun ρ₃ i => ?_
  exact .number _

theorem setByte_agree (hv : Related ρ v w) (hv' : Related ρ v' w') {x y : Value}
    (hx : Related ρ x y) : Agree ρ (setByte v v' x) (setByte w w' y) Related := by
  refine (bytesArg_agree "bytevector-u8-set!" hv).bind fun ρ₁ a b hle₁ hr => ?_
  refine (byte_agree "bytevector-u8-set!" (hx.mono hle₁)).bind_same fun ρ₂ x' hle₂ => ?_
  refine (Agree.ask fun s t hs => ?_).bind_same fun ρ₃ size hle₃ => ?_
  · rw [hs.bytes (hle₂ hr)]
    rfl
  have hle := (hle₁.trans hle₂).trans hle₃
  refine (heldIndex_agree "bytevector-u8-set!" size (hv.mono hle) (hv'.mono hle)).bind_same
    fun ρ₄ i hle₄ => ?_
  refine (Agree.update (fun s t hs => hs.setBytes (hle₄ (hle₃ (hle₂ hr))) i x')
    (fun s => s.grows_setBytes a i x') fun t => t.grows_setBytes b i x').bind fun _ _ _ _ _ => ?_
  exact .pure .void

theorem filledBytes_agree (hv : Related ρ v w) {fill fill' : Option Value}
    (hfill : Option.Rel (Related ρ) fill fill') :
    Agree ρ (filledBytes v fill) (filledBytes w fill') Related := by
  refine (length_agree "make-bytevector" hv).bind_same fun ρ' n hle => ?_
  cases hfill with
  | some hx =>
      exact (byte_agree "make-bytevector" (hx.mono hle)).bind_same fun ρ'' b _ =>
        .make fun s t hs => hs.newBytes _
  | none => exact .make fun s t hs => hs.newBytes _

/-- The procedures that make an object of all their arguments. -/
theorem run_many_agree {p : Vectors} (hp : p ∈ [vector, bytevector])
    (hvs : List.Forall₂ (Related ρ) vs ws) : Agree ρ (p.run vs) (p.run ws) Related := by
  simp only [List.mem_cons, List.not_mem_nil, or_false] at hp
  rcases hp with rfl | rfl
  · exact .make fun s t hs => hs.newVector hvs
  · refine (Agree.mapM_same hvs fun _ _ _ hv => byte_agree "bytevector" hv).bind_same
      fun ρ' bytes _ => ?_
    exact .make fun s t hs => hs.newBytes _

/-- The procedures of one argument. -/
theorem run_one_agree (p : Vectors) (hv : Related ρ v w) :
    Agree ρ (p.run [v]) (p.run [w]) Related := by
  cases p with
  | vector | bytevector => exact run_many_agree (by simp) (.cons hv .nil)
  | makeVector => exact filled_agree hv (.number _)
  | makeBytevector => exact filledBytes_agree hv .none
  | isVector | isBytevector => cases hv <;> exact .pure (.bool _)
  | vectorLength =>
      refine (vectorArg_agree "vector-length" hv).bind fun ρ' a b _ hr => ?_
      refine (Agree.ask fun s t hs => ?_).map_same fun _ _ => .number _
      simpa [Same] using (hs.vector hr).length_eq
  | vectorToList =>
      refine (vectorArg_agree "vector->list" hv).bind fun ρ' a b _ hr => ?_
      exact .make fun s t hs => hs.list (hs.vector hr)
  | listToVector =>
      refine (properList_agree "list->vector" .properList hv).bind fun ρ' as bs _ has => ?_
      exact .make fun s t hs => hs.newVector has
  | bytevectorLength =>
      refine (bytesArg_agree "bytevector-length" hv).bind fun ρ' a b _ hr => ?_
      refine (Agree.ask fun s t hs => ?_).map_same fun _ _ => .number _
      rw [hs.bytes hr]
      rfl
  | _ => exact wrongCount_agree (.cons hv .nil)

theorem run_agree (p : Vectors) (hvs : List.Forall₂ (Related ρ) vs ws) :
    Agree ρ (p.run vs) (p.run ws) Related := by
  rcases hvs with _ | ⟨hv, _ | ⟨hv', _ | ⟨hv'', _ | ⟨hlast, hrest⟩⟩⟩⟩
  · cases p with
    | vector | bytevector => exact run_many_agree (by simp) .nil
    | _ => exact wrongCount_agree .nil
  · exact run_one_agree p hv
  · cases p with
    | vector | bytevector => exact run_many_agree (by simp) (.cons hv (.cons hv' .nil))
    | makeVector => exact filled_agree hv hv'
    | makeBytevector => exact filledBytes_agree hv (.some hv')
    | vectorRef => exact element_agree hv hv'
    | bytevectorRef => exact byteAt_agree hv hv'
    | _ => exact wrongCount_agree (.cons hv (.cons hv' .nil))
  · cases p with
    | vector | bytevector =>
        exact run_many_agree (by simp) (.cons hv (.cons hv' (.cons hv'' .nil)))
    | vectorSet => exact setElement_agree hv hv' hv''
    | bytevectorSet => exact setByte_agree hv hv' hv''
    | _ => exact wrongCount_agree (.cons hv (.cons hv' (.cons hv'' .nil)))
  · have hall := List.Forall₂.cons hv (.cons hv' (.cons hv'' (.cons hlast hrest)))
    cases p with
    | vector | bytevector => exact run_many_agree (by simp) hall
    | _ => exact wrongCount_agree hall

end Vectors

namespace Ports

theorem portRef_agree (name : String) {standard : Ref}
    (hstandard : ∀ ⦃s t⦄, Similar ρ s t → ρ .port standard standard)
    (hvs : List.Forall₂ (Related ρ) vs ws) :
    Agree ρ (portRef name standard vs) (portRef name standard ws) fun ρ' => ρ' .port := by
  cases hvs with
  | nil =>
      intro s t hs
      exact Agree.pure (Q := fun ρ' => ρ' .port) (hstandard hs) s t hs
  | cons hv _ =>
      have hv' := hv
      cases hv with
      | port hr => exact .pure hr
      | _ => exact wrongType_agree name _ hv'

theorem stdout_agree (name : String) (hvs : List.Forall₂ (Related ρ) vs ws) :
    Agree ρ (portRef name Store.stdout vs) (portRef name Store.stdout ws) fun ρ' => ρ' .port :=
  portRef_agree name (fun _ _ hs => hs.stdout) hvs

theorem stdin_agree (name : String) (hvs : List.Forall₂ (Related ρ) vs ws) :
    Agree ρ (portRef name Store.stdin vs) (portRef name Store.stdin ws) fun ρ' => ρ' .port :=
  portRef_agree name (fun _ _ hs => hs.stdin) hvs

theorem writeTo_agree {a b : Ref} (hr : ρ .port a b) (text : String) :
    Agree ρ (writeTo a text) (writeTo b text) Related := by
  refine (Agree.ask fun s t hs => hs.port hr).bind_same fun ρ₁ p hle₁ => ?_
  refine (Eval.ofPort_agree (p.write text)).bind_same fun ρ₂ q hle₂ => ?_
  have hr' := hle₂ (hle₁ hr)
  refine (Agree.update (fun s t hs => (hs.setPort hr' q.1).print q.2)
    (fun s => (s.grows_setPort a q.1).trans (Store.grows_setConsole _ _))
    fun t => (t.grows_setPort b q.1).trans (Store.grows_setConsole _ _)).bind fun _ _ _ _ _ => ?_
  exact .pure .void

theorem takeFrom_agree {a b : Ref} (hr : ρ .port a b)
    (op : Port → Console → Except Port.Stop (Option Char × Port × Console)) :
    Agree ρ (takeFrom a op) (takeFrom b op) Related := by
  refine (Agree.ask fun s t hs => hs.port hr).bind_same fun ρ₁ p hle₁ => ?_
  refine (Agree.ask fun s t hs => hs.console).bind_same fun ρ₂ console hle₂ => ?_
  cases op p console with
  | ok result =>
      obtain ⟨c, p, console⟩ := result
      have hr' := hle₂ (hle₁ hr)
      refine (Agree.update (fun s t hs => (hs.setPort hr' p).setConsole console)
        (fun s => (s.grows_setPort a p).trans (Store.grows_setConsole _ _))
        fun t => (t.grows_setPort b p).trans (Store.grows_setConsole _ _)).bind fun _ _ _ _ _ => ?_
      cases c with
      | some c => exact .pure (.char c)
      | none => exact .pure .eof
  | error stop =>
      cases stop with
      | fault fault => exact .raise _
      | waiting => exact .throw _

theorem isPort_agree (test : Port → Bool) (hv : Related ρ v w) :
    Agree ρ (isPort test v) (isPort test w) Related := by
  cases hv with
  | port hr =>
      exact (Agree.ask fun s t hs => hs.port hr).map_same fun _ p => .bool (test p)
  | _ => exact .pure (.bool false)

theorem charReady_agree (hvs : List.Forall₂ (Related ρ) vs ws) :
    Agree ρ (run .charReady vs) (run .charReady ws) Related := by
  refine (stdin_agree "char-ready?" hvs).bind fun ρ₁ a b _ hr => ?_
  refine (Agree.ask fun s t hs => hs.port hr).bind_same fun ρ₂ p _ => ?_
  exact (Eval.ofPort_agree p.ready).map_same fun _ _ => .bool true

theorem closePort_agree (hv : Related ρ v w) :
    Agree ρ (run .closePort [v]) (run .closePort [w]) Related := by
  have hv' := hv
  cases hv with
  | @port a b hr =>
      refine (Agree.update (fun s t hs => ?_) (fun s => s.grows_setPort a _)
        fun t => t.grows_setPort b _).bind fun _ _ _ _ _ => .pure .void
      rw [hs.port hr]
      exact hs.setPort hr _
  | _ => exact wrongType_agree _ _ hv'

theorem getOutputString_agree (hv : Related ρ v w) :
    Agree ρ (run .getOutputString [v]) (run .getOutputString [w]) Related := by
  have hv' := hv
  cases hv with
  | port hr =>
      refine (Agree.ask fun s t hs => hs.port hr).bind_same fun ρ₁ p _ => ?_
      refine (Eval.ofPort_agree p.output).bind_same fun ρ₂ text _ => ?_
      exact .make fun s t hs => hs.newString text
  | _ => exact wrongType_agree _ _ hv'

/-- The procedures that read from a port or end a line on one, which may be left out. -/
theorem run_port_agree {p : Ports} (hp : p ∈ [newline, readChar, peekChar, charReady])
    (hvs : List.Forall₂ (Related ρ) vs ws) : Agree ρ (p.run vs) (p.run ws) Related := by
  simp only [List.mem_cons, List.not_mem_nil, or_false] at hp
  rcases hp with rfl | rfl | rfl | rfl
  · exact (stdout_agree "newline" hvs).bind fun _ _ _ _ hr => writeTo_agree hr _
  · exact (stdin_agree "read-char" hvs).bind fun _ _ _ _ hr => takeFrom_agree hr _
  · exact (stdin_agree "peek-char" hvs).bind fun _ _ _ _ hr => takeFrom_agree hr _
  · exact charReady_agree hvs

/-- The procedures that write a value to a port, which may be left out. -/
theorem run_output_agree {p : Ports} (hp : p ∈ [display, write, writeChar]) (hv : Related ρ v w)
    (hvs : List.Forall₂ (Related ρ) vs ws) :
    Agree ρ (p.run (v :: vs)) (p.run (w :: ws)) Related := by
  simp only [List.mem_cons, List.not_mem_nil, or_false] at hp
  rcases hp with rfl | rfl | rfl
  · refine (stdout_agree "display" hvs).bind fun ρ' a b hle hr => ?_
    refine (Agree.ask fun s t hs => hs.displayed (hv.mono hle)).bind_same fun _ text hle' => ?_
    exact writeTo_agree (hle' hr) text
  · refine (stdout_agree "write" hvs).bind fun ρ' a b hle hr => ?_
    refine (Eval.written_agree (hv.mono hle)).bind_same fun _ text hle' => ?_
    exact writeTo_agree (hle' hr) text
  · refine (char_agree "write-char" hv).bind_same fun ρ' c hle => ?_
    refine (stdout_agree "write-char" (hvs.imp fun _ _ hv => hv.mono hle)).bind
      fun _ _ _ _ hr => ?_
    exact writeTo_agree hr _

/-- The procedures of one argument. -/
theorem run_one_agree (p : Ports) (hv : Related ρ v w) :
    Agree ρ (p.run [v]) (p.run [w]) Related := by
  cases p with
  | display | write | writeChar => exact run_output_agree (by simp) hv .nil
  | newline | readChar | peekChar | charReady => exact run_port_agree (by simp) (.cons hv .nil)
  | closePort => exact closePort_agree hv
  | isInputPort => exact isPort_agree _ hv
  | isOutputPort => exact isPort_agree _ hv
  | openInputString =>
      exact (string_agree "open-input-string" hv).bind_same fun _ text _ =>
        .make fun s t hs => hs.newPort _
  | getOutputString => exact getOutputString_agree hv
  | isEofObject => cases hv <;> exact .pure (.bool _)
  | _ => exact wrongCount_agree (.cons hv .nil)

theorem run_agree (p : Ports) (hvs : List.Forall₂ (Related ρ) vs ws) :
    Agree ρ (p.run vs) (p.run ws) Related := by
  rcases hvs with _ | ⟨hv, _ | ⟨hv', hrest⟩⟩
  · cases p with
    | newline | readChar | peekChar | charReady => exact run_port_agree (by simp) .nil
    | openOutputString => exact .make fun s t hs => hs.newPort _
    | currentOutputPort =>
        intro s t hs
        exact Agree.pure (Related.port hs.stdout) s t hs
    | eofObject => exact .pure .eof
    | _ => exact wrongCount_agree .nil
  · exact run_one_agree p hv
  · cases p with
    | display | write | writeChar => exact run_output_agree (by simp) hv (.cons hv' hrest)
    | newline | readChar | peekChar | charReady =>
        exact run_port_agree (by simp) (.cons hv (.cons hv' hrest))
    | closePort | getOutputString =>
        have hall := List.Forall₂.cons hv (.cons hv' hrest)
        cases hv <;> exact wrongCount_agree hall
    | _ => exact wrongCount_agree (.cons hv (.cons hv' hrest))

end Ports

/-- Answers that are the same up to a renaming. -/
inductive Reply.Related (ρ : Renaming) : Reply → Reply → Prop
  | value {v w : Value} (h : Value.Related ρ v w) : Related ρ (.value v) (.value w)
  | call {p q : Value} {vs ws : List Value} (hp : Value.Related ρ p q)
      (hvs : List.Forall₂ (Value.Related ρ) vs ws) : Related ρ (.call p vs) (.call q ws)

namespace Control

theorem spreadCall_agree (hv : Related ρ v w) (hvs : List.Forall₂ (Related ρ) vs ws) :
    Agree ρ (spreadCall v vs) (spreadCall w ws) Reply.Related := by
  unfold spreadCall
  rw [hv.isProcedure_eq]
  cases w.isProcedure with
  | false =>
      exact (wrongType_agree (Q := fun _ _ _ => False) "apply" .procedure hv).bind
        fun _ _ _ _ hfalse => hfalse.elim
  | true =>
      rcases List.eq_nil_or_concat' vs with rfl | ⟨init, last, rfl⟩
      · cases hvs
        exact .pure (.call hv .nil)
      · obtain ⟨init', last', hinit, hlast, rfl⟩ := forall₂_concat hvs
        simp only [List.getLast?_concat, List.dropLast_concat]
        refine (properList_agree "apply" .spreadList hlast).bind fun ρ' as bs hle has => ?_
        exact .pure (.call (hv.mono hle) (List.rel_append (hinit.imp fun _ _ hv => hv.mono hle) has))

theorem errorText_eq {s t : Store} (hs : Similar ρ s t) (hv : Related ρ v w)
    (hvs : List.Forall₂ (Related ρ) vs ws) : errorText s v vs = errorText t w ws := by
  unfold errorText
  rw [hs.displayed hv, Similar.map_eq hvs fun _ _ hv => hs.written hv]

theorem run_agree (p : Control) (hvs : List.Forall₂ (Related ρ) vs ws) :
    Agree ρ (p.run vs) (p.run ws) Reply.Related := by
  rcases hvs with _ | @⟨v, w, vs, ws, hv, hrest⟩
  · cases p <;> exact wrongCount_agree .nil
  · cases p with
    | isProcedure =>
        rcases hrest with _ | ⟨hv', hrest⟩
        · exact .pure (.value (hv.isProcedure_eq ▸ .bool _))
        · exact wrongCount_agree (.cons hv (.cons hv' hrest))
    | apply => exact spreadCall_agree hv hrest
    | error =>
        refine (Agree.ask fun s t hs => errorText_eq hs hv hrest).bind_same fun _ text _ => ?_
        exact .raise _

end Control

/-- A native procedure that changes no pair does the same with related arguments. -/
theorem call_agree {p : Native} (hp : target? p vs = none)
    (hvs : List.Forall₂ (Related ρ) vs ws) : Agree ρ (p.call vs) (p.call ws) Reply.Related := by
  unfold call
  rw [hvs.length_eq]
  refine (Eval.checkArity_agree _ _ _).bind_same fun ρ' _ hle => ?_
  have hvs' := hvs.imp fun _ _ hv => hv.mono hle
  cases p with
  | numeric p => exact (Numeric.run_agree p hvs').bind fun _ _ _ _ hv => .pure (.value hv)
  | lists p => exact (Lists.run_agree hp hvs').bind fun _ _ _ _ hv => .pure (.value hv)
  | texts p => exact (Texts.run_agree p hvs').bind fun _ _ _ _ hv => .pure (.value hv)
  | vectors p => exact (Vectors.run_agree p hvs').bind fun _ _ _ _ hv => .pure (.value hv)
  | ports p => exact (Ports.run_agree p hvs').bind fun _ _ _ _ hv => .pure (.value hv)
  | control p => exact Control.run_agree p hvs'

end Native
end LittleScheme

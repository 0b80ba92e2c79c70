import LittleScheme.Proofs.Effects
import LittleScheme.Proofs.Guarded
import LittleScheme.Proofs.Sharing

/-!
# What a computation does not notice

A pair that a computation cannot get at may hold anything: with another value in its first part the
computation does the same, and the pair holds that value afterwards as well. Reading is compared
between the two stores, which are similar along what the computation can get at. Making and changing
objects elsewhere commutes with the change of that pair.
-/
namespace LittleScheme

open Value (Related)

/-! ### Changing a first part commutes -/

theorem modify_push {α : Type} {xs : Array α} {i : Nat} (hi : i < xs.size) (f : α → α) (x : α) :
    (xs.push x).modify i f = (xs.modify i f).push x := by
  refine Array.ext (by simp) fun j hj hj' => ?_
  simp only [Array.getElem_modify, Array.getElem_push, Array.size_modify]
  have hne : ¬ (i = j ∧ ¬ j < xs.size) := by omega
  split <;> split <;> simp_all

theorem modify_comm {α : Type} {xs : Array α} {i j : Nat} {f g : α → α}
    (h : i ≠ j ∨ ∀ x, f (g x) = g (f x)) :
    (xs.modify i f).modify j g = (xs.modify j g).modify i f := by
  refine Array.ext (by simp) fun k hk hk' => ?_
  simp only [Array.getElem_modify]
  split <;> split <;> simp_all

namespace Store

variable {s : Store} {c : Ref} {z : Value}

theorem pushPair_setCar (hc : c < s.pairs.size) (a b : Value) :
    (s.setCar c z).pushPair a b = (s.pushPair a b).setCar c z :=
  congrArg (fun pairs => { s with pairs }) (modify_push hc _ _).symm

theorem listWithTail_setCar (hc : c < s.pairs.size) (items : List Value) (tail : Value) :
    (s.setCar c z).listWithTail items tail =
      ((s.listWithTail items tail).1, (s.listWithTail items tail).2.setCar c z) := by
  induction items with
  | nil => rfl
  | cons v items ih =>
      have hc' : c < (s.listWithTail items tail).2.pairs.size := by
        rw [size_listWithTail]
        lia
      rw [listWithTail_cons, listWithTail_cons, ih, size_setCar, pushPair_setCar hc']

theorem setCar_comm {r : Ref} (hr : r ≠ c) (v : Value) :
    (s.setCar c z).setCar r v = (s.setCar r v).setCar c z := by
  have hpairs : ((s.setCar c z).setCar r v).pairs = ((s.setCar r v).setCar c z).pairs := by
    simp only [setCar]
    exact modify_comm (.inl hr.symm)
  exact congrArg (fun pairs => { s with pairs }) hpairs

theorem setCdr_setCar (r : Ref) (v : Value) :
    (s.setCar c z).setCdr r v = (s.setCdr r v).setCar c z := by
  have hpairs : ((s.setCar c z).setCdr r v).pairs = ((s.setCdr r v).setCar c z).pairs := by
    simp only [setCar, setCdr]
    exact modify_comm (.inr fun _ => rfl)
  exact congrArg (fun pairs => { s with pairs }) hpairs

theorem setCar_setCar (v : Value) : (s.setCar c z).setCar c v = s.setCar c v := by
  have hpairs : ((s.setCar c z).setCar c v).pairs = (s.setCar c v).pairs := by
    refine Array.ext (by simp) fun k hk hk' => ?_
    simp only [setCar, Array.getElem_modify]
    split <;> rfl
  exact congrArg (fun pairs => { s with pairs }) hpairs

theorem bindAll_setCar (r : Ref) (bindings : List (String × Value)) :
    (s.setCar c z).bindAll r bindings = (s.bindAll r bindings).setCar c z := by
  induction bindings generalizing s with
  | nil => rfl
  | cons binding bindings ih => exact ih (s := s.bind r binding.1 binding.2)

theorem enterCall_setCar (hc : c < s.pairs.size) (r : Ref) (args : List Value) :
    (s.setCar c z).enterCall r args = ((s.enterCall r args).1, (s.enterCall r args).2.setCar c z) := by
  have hbind : ∀ (d : Scope) (bindings : List (String × Value)),
      ((s.setCar c z).pushScope d).bindAll s.nextScope bindings =
        ((s.pushScope d).bindAll s.nextScope bindings).setCar c z :=
    fun d bindings => bindAll_setCar (s := s.pushScope d) s.nextScope bindings
  unfold enterCall
  simp only [show (s.setCar c z).closure r = s.closure r from rfl,
    show (s.setCar c z).nextScope = s.nextScope from rfl, hbind]
  cases (s.closure r).rest with
  | none => rfl
  | some rest =>
      simp only [list]
      rw [listWithTail_setCar]
      · rfl
      · rwa [pairs_bindAll]

end Store

/-! ### Ignoring a first part -/

namespace Eval

/-- An outcome with a change of its store. -/
def onStore {α : Type} (f : Store → Store) :
    EStateM.Result Stop Store α → EStateM.Result Stop Store α
  | .ok a s => .ok a (f s)
  | .error e s => .error e (f s)

/-- With another value in the first part of the pair the computation does the same. -/
def Ignores {α : Type} (c : Ref) (z : Value) (s : Store) (x : Eval α) : Prop :=
  x.run (s.setCar c z) = onStore (fun s => s.setCar c z) (x.run s)

namespace Ignores

variable {α β : Type} {c : Ref} {z : Value} {s : Store}

theorem of_run {x y : Eval α} (hx : x.run (s.setCar c z) = y.run (s.setCar c z)) (hs : x.run s = y.run s)
    (h : Ignores c z s y) : Ignores c z s x := by
  rwa [Ignores, hx, hs]

theorem pure (a : α) : Ignores c z s (Pure.pure a) := rfl

theorem throw (e : Stop) : Ignores c z s (MonadExcept.throw e : Eval α) := rfl

theorem ask {f : Store → α} (h : f (s.setCar c z) = f s) : Ignores c z s (Eval.ask f) :=
  congrArg (EStateM.Result.ok · (s.setCar c z)) h

theorem make {f : Store → α × Store} (h : f (s.setCar c z) = ((f s).1, (f s).2.setCar c z)) :
    Ignores c z s (Eval.make f) := by
  rw [Ignores, run_make, h]
  rfl

theorem update {f : Store → Store} (h : f (s.setCar c z) = (f s).setCar c z) :
    Ignores c z s (Eval.update f) :=
  congrArg (EStateM.Result.ok ()) h

theorem bind {x : Eval α} {f : α → Eval β} (hx : Ignores c z s x)
    (hf : ∀ a s', x.run s = .ok a s' → Ignores c z s' (f a)) : Ignores c z s (x >>= f) := by
  rw [Ignores] at hx ⊢
  cases hrun : x.run s with
  | ok a s' =>
      rw [hrun] at hx
      rw [run_bind_ok hrun, run_bind_ok (a := a) hx]
      exact hf a s' hrun
  | error e s' =>
      rw [hrun] at hx
      rw [run_bind_error hrun, run_bind_error (e := e) hx]
      rfl

/-- First the store is read only. -/
theorem reads {x : Eval α} {f : α → Eval β} (hx : Ignores c z s x) (hread : ReadOnly x)
    (hf : ∀ a, x.run s = .ok a s → Ignores c z s (f a)) : Ignores c z s (x >>= f) := by
  refine hx.bind fun a s' hrun => ?_
  obtain rfl := hread.eq_of_ok hrun
  exact hf a hrun

/-- First something is read that is the same in both stores. -/
theorem asks {f : Store → α} {g : α → Eval β} (h : f (s.setCar c z) = f s)
    (hg : Ignores c z s (g (f s))) : Ignores c z s (Eval.ask f >>= g) := by
  refine (ask h).bind fun a s' hrun => ?_
  rw [run_ask] at hrun
  cases hrun
  exact hg

theorem map {x : Eval α} (hx : Ignores c z s x) (f : α → β) :
    Ignores c z s (x >>= fun a => Pure.pure (f a)) := hx.bind fun _ _ _ => rfl

end Ignores
end Eval

open Eval (Ignores ReadOnly Checks)

/-- A pair that cannot be reached along a renaming of a store to itself. -/
structure Hides (ρ : Renaming) (c : Ref) (s : Store) : Prop where
  similar : Similar ρ s s
  diagonal : ∀ ⦃k a b⦄, ρ k a b → a = b
  bound : c < s.pairs.size
  apart : ¬ ρ .pair c c

section

variable {α β : Type} {ρ ρ' : Renaming} {c : Ref} {z : Value} {s : Store} {v w : Value}

theorem Value.Related.eq_of_diagonal (h : Related ρ v w) (hρ : ∀ ⦃k a b⦄, ρ k a b → a = b) : v = w := by
  cases h with
  | string h | pair h | vector h | bytes h | closure h | port h => rw [hρ h]
  | _ => rfl

theorem eq_of_forall₂_related {vs ws : List Value} (h : List.Forall₂ (Related ρ) vs ws)
    (hρ : ∀ ⦃k a b⦄, ρ k a b → a = b) : vs = ws := by
  induction h with
  | nil => rfl
  | cons hv _ ih => rw [hv.eq_of_diagonal hρ, ih]

theorem Hides.ne (h : Hides ρ c s) {r : Ref} (hr : ρ .pair r r) : r ≠ c := by
  rintro rfl
  exact h.apart hr

/-- The two stores look the same from what can be reached. -/
theorem Hides.similar_setCar (h : Hides ρ c s) (z : Value) : Similar ρ (s.setCar c z) s := by
  refine h.similar.congr (fun k a b hr => s.sameAt_setCar ?_ z) (fun k a b _ => .refl s k b)
    (fun k => (s.count_setCar c z k).ge) (fun _ => Nat.le_refl _) rfl
  rintro ⟨rfl, rfl⟩
  obtain rfl := h.diagonal hr
  exact h.apart hr

/-- What agrees with itself and only reads the store does not notice the pair. -/
theorem Hides.agree (h : Hides ρ c s) {x : Eval α} {Q : Renaming → α → α → Prop} (hx : Agree ρ x x Q)
    (hread : ReadOnly x) (hQ : ∀ ρ' a b, (∀ ⦃k a b⦄, ρ' k a b → a = b) → Q ρ' a b → a = b) :
    Ignores c z s x := by
  have hxx := hx _ _ (h.similar_setCar z)
  rw [Ignores]
  rcases hread (s.setCar c z) with ⟨a, ha⟩ | ⟨e, he⟩
  · rcases hread s with ⟨b, hb⟩ | ⟨e, he⟩
    · rw [ha, hb] at hxx
      obtain ⟨ρ', hlater, hsimilar, hq⟩ := hxx
      rw [ha, hb, hQ ρ' a b ?_ hq]
      · rfl
      · intro k a b hr
        rcases hlater.fresh hr with hold | ⟨-, hnew⟩
        · exact h.diagonal hold
        · exact absurd (hsimilar.bound hr).2 (Nat.not_lt.2 hnew)
    · rw [ha, he] at hxx
      exact hxx.elim
  · rcases hread s with ⟨b, hb⟩ | ⟨e', he'⟩
    · rw [he, hb] at hxx
      exact hxx.elim
    · rw [he, he'] at hxx
      rw [he, he', hxx.1]
      rfl

theorem Hides.same (h : Hides ρ c s) {x : Eval α} (hx : Agree ρ x x Same) (hread : Checks x) :
    Ignores c z s x := h.agree hx hread.readOnly fun _ _ _ _ hab => hab

theorem Hides.value (h : Hides ρ c s) {x : Eval Value} (hx : Agree ρ x x Related) (hread : Checks x) :
    Ignores c z s x := h.agree hx hread.readOnly fun _ _ _ hρ hab => hab.eq_of_diagonal hρ

/-- A check comes first, which agrees with itself. -/
theorem Hides.check (h : Hides ρ c s) {x : Eval α} {f : α → Eval β} (hx : Agree ρ x x Same)
    (hread : Checks x) (hf : ∀ a, Ignores c z s (f a)) : Ignores c z s (x >>= f) :=
  (h.same hx hread).reads hread.readOnly fun a _ => hf a

theorem Hides.ref (h : Hides ρ c s) {k : Kind} {x : Eval Ref} {f : Ref → Eval β}
    (hx : Agree ρ x x fun ρ' => ρ' k) (hread : Checks x) (hf : ∀ a, Ignores c z s (f a)) :
    Ignores c z s (x >>= f) :=
  (h.agree hx hread.readOnly fun _ _ _ hρ hab => hρ hab).reads hread.readOnly fun a _ => hf a

end

/-! ### Native procedures -/

namespace Native

open Argument
open Eval (checks_mapM checks_ask checks_pure)

variable {ρ : Renaming} {c : Ref} {z : Value} {s : Store} {args : List Value} {v w : Value}

theorem wrongType_ignores {α : Type} (h : Hides ρ c s) (name : String) (expected : Expected)
    (hv : Related ρ v v) : Ignores c z s (wrongType name expected v : Eval α) :=
  h.same (wrongType_agree name expected hv) (checks_wrongType name expected v)

/-- The elements of a list that is an argument. -/
theorem properList_ignores {α : Type} (h : Hides ρ c s) (name : String) (expected : Expected)
    (hv : Related ρ v v) {f : List Value → Eval α}
    (hf : ∀ items, (∀ v ∈ items, Related ρ v v) → Ignores c z s (f items)) :
    Ignores c z s (properList name expected v >>= f) := by
  have hread := checks_properList (P := fun _ e => e.Fresh) name expected v
  refine (h.agree (properList_agree name expected hv) hread.readOnly
    fun _ _ _ hρ hab => eq_of_forall₂_related hab hρ).reads hread.readOnly fun items hrun => hf items ?_
  have hitems := h.similar.elements? hv
  rw [(run_properList_eq_ok.1 hrun).1] at hitems
  exact List.forall₂_same.1 (Option.rel_some_some.1 hitems)

namespace Lists

/-- A pair that is an argument can be reached. -/
theorem pairRef_ignores (h : Hides ρ c s) (name : String) (hv : Related ρ v v) {f : Ref → Eval Value}
    (hf : ∀ r, ρ .pair r r → Ignores c z s (f r)) : Ignores c z s (pairRef name v >>= f) := by
  cases v with
  | pair r =>
      cases hv with
      | pair hr => exact hf r hr
  | _ => exact (wrongType_ignores h name .pair hv).bind fun _ _ hrun => absurd hrun (by
      simp [wrongType, Eval.written, Eval.fail])

theorem joined_ignores (h : Hides ρ c s) (hargs : ∀ v ∈ args, Related ρ v v) :
    Ignores c z s (joined args) := by
  unfold joined
  split
  · exact .pure _
  · have hread := checks_mapM (P := fun _ e => e.Fresh) (checks_properList "append" .properList) args.dropLast
    have hitems : Agree ρ (args.dropLast.mapM (properList "append" .properList))
        (args.dropLast.mapM (properList "append" .properList))
        fun ρ' => List.Forall₂ (List.Forall₂ (Related ρ')) :=
      Agree.mapM_related (R := fun ρ' => List.Forall₂ (Related ρ'))
        (List.forall₂_same.2 fun v hv => hargs v (List.mem_of_mem_dropLast hv))
        (fun _ _ _ _ hle h => h.imp fun _ _ hv => hv.mono hle)
        fun _ _ _ hv => properList_agree "append" .properList hv
    refine (h.agree hitems hread.readOnly fun ρ' as bs hρ hab => ?_).reads hread.readOnly fun items _ =>
      .make (Store.listWithTail_setCar h.bound _ _)
    exact List.forall₂_eq_eq_eq ▸ hab.imp fun _ _ hvs => eq_of_forall₂_related hvs hρ

theorem run_ignores (p : Lists) (h : Hides ρ c s) (hargs : ∀ v ∈ args, Related ρ v v) :
    Ignores c z s (p.run args) := by
  have hread {p : Lists} {args : List Value} (hp : target? (.lists p) args = none)
      (hargs : ∀ v ∈ args, Related ρ v v) (hchecks : Checks (p.run args)) : Ignores c z s (p.run args) :=
    h.value (run_agree hp (List.forall₂_same.2 hargs)) hchecks
  have hlist (items : List Value) : Ignores c z s (Eval.make fun s => s.list items) :=
    .make (Store.listWithTail_setCar h.bound items .nil)
  unfold run
  split
  · exact .make (congrArg₂ Prod.mk (congrArg Value.pair (Store.size_setCar _ c z))
      (Store.pushPair_setCar h.bound _ _))
  · exact hread (p := .car) rfl hargs ((checks_pairRef _ _).bind fun _ => checks_ask _)
  · exact hread (p := .cdr) rfl hargs ((checks_pairRef _ _).bind fun _ => checks_ask _)
  · exact pairRef_ignores h _ (hargs _ (by simp)) fun r hr =>
      (Ignores.update (Store.setCar_comm (h.ne hr) _)).map _
  · exact pairRef_ignores h _ (hargs _ (by simp)) fun r hr =>
      (Ignores.update (Store.setCdr_setCar r _)).map _
  · exact hlist _
  · exact hread (p := .length) rfl hargs ((checks_properList _ _ _).map _)
  · exact joined_ignores h hargs
  · exact properList_ignores h _ _ (hargs _ (by simp)) fun _ _ => hlist _
  · exact hread (p := .listTail) rfl hargs (checks_tailOf _ _)
  · exact .pure _
  · exact .pure _
  · exact hread (p := .isList) rfl hargs ((checks_ask _).map _)
  · exact .pure _
  · exact .pure _
  · exact hread (p := .equal) rfl hargs ((checks_ask _).map _)
  · exact .pure _
  · exact .throw _

end Lists

namespace Texts

theorem slice_ignores (h : Hides ρ c s) (hv : Related ρ v v) (hw : Related ρ w w) {stop : Option Value}
    (hstop : ∀ x ∈ stop, Related ρ x x) : Ignores c z s (slice v w stop) := by
  refine h.check (string_agree _ hv) (checks_string _ v) fun text =>
    h.check (index_agree _ _ hw) (checks_index _ _ w) fun start => ?_
  have hcut (stop : Nat) : Ignores c z s (do
      if stop < start then Eval.fail (.startAfterEnd start stop)
      Eval.make fun s => s.newString (String.ofList ((text.toList.drop start).take (stop - start)))) := by
    split
    · exact .throw _
    · exact .make rfl
  cases stop with
  | some x => exact h.check (index_agree _ _ (hstop x rfl)) (checks_index _ _ x) hcut
  | none => exact hcut _

theorem ofCharacters_ignores (h : Hides ρ c s) (hv : Related ρ v v) : Ignores c z s (ofCharacters v) :=
  properList_ignores h _ _ hv fun _ hitems =>
    h.check (.mapM_same (List.forall₂_same.2 hitems) fun _ _ _ hv => char_agree _ hv)
      (checks_mapM (checks_char _) _) fun _ => .make rfl

theorem run_ignores (p : Texts) (h : Hides ρ c s) (hargs : ∀ v ∈ args, Related ρ v v) :
    Ignores c z s (p.run args) := by
  have hread {p : Texts} {args : List Value} (hargs : ∀ v ∈ args, Related ρ v v)
      (hchecks : Checks (p.run args)) : Ignores c z s (p.run args) :=
    h.value (run_agree p (List.forall₂_same.2 hargs)) hchecks
  have hstrings (name : String) (args : List Value) : Checks (args.mapM (string name)) :=
    checks_mapM (checks_string name) args
  have hchars (name : String) (args : List Value) : Checks (args.mapM (char name)) :=
    checks_mapM (checks_char name) args
  unfold run
  split
  · exact .pure _
  · exact hread (p := .stringLength) hargs ((checks_string _ _).map _)
  · exact hread (p := .stringRef) hargs (checks_charAt _ _)
  · exact h.check (.mapM_same (List.forall₂_same.2 hargs) fun _ _ _ hv => string_agree _ hv) (hstrings _ _)
      fun _ => .make rfl
  · exact slice_ignores h (hargs _ (by simp)) (hargs _ (by simp)) (by simp)
  · exact slice_ignores h (hargs _ (by simp)) (hargs _ (by simp)) (by simpa using hargs _ (by simp))
  · exact hread (p := .stringEqual) hargs ((hstrings _ _).map _)
  · exact hread (p := .stringLess) hargs ((hstrings _ _).map _)
  · exact hread (p := .stringToSymbol) hargs ((checks_string _ _).map _)
  · split
    · exact .make rfl
    · exact .make rfl
    · exact wrongType_ignores h _ _ (hargs _ (by simp))
  · refine hread (p := .stringToNumber) hargs ((checks_string _ _).bind fun text => ?_)
    split <;> exact checks_pure _
  · exact h.check (number_agree _ (hargs _ (by simp))) (checks_number _ _) fun _ => .make rfl
  · exact h.check (string_agree _ (hargs _ (by simp))) (checks_string _ _) fun _ =>
      .make (Store.listWithTail_setCar h.bound _ _)
  · exact ofCharacters_ignores h (hargs _ (by simp))
  · exact .pure _
  · exact .pure _
  · exact hread (p := .charToInteger) hargs ((checks_char _ _).map _)
  · exact hread (p := .integerToChar) hargs (checks_charOfInteger _)
  · exact hread (p := .charEqual) hargs ((hchars _ _).map _)
  · exact hread (p := .charLess) hargs ((hchars _ _).map _)
  · exact .throw _

end Texts

namespace Vectors

theorem setElement_ignores (h : Hides ρ c s) {target position : Value} (htarget : Related ρ target target)
    (hposition : Related ρ position position) : Ignores c z s (setElement target position v) := by
  refine h.ref (vectorArg_agree _ htarget) (checks_vectorArg _ _) fun r => .asks rfl ?_
  exact h.check (heldIndex_agree _ _ htarget hposition) (checks_heldIndex (fun _ _ => trivial) _ _)
    fun i => (Ignores.update rfl).map _

theorem setByte_ignores (h : Hides ρ c s) {target position : Value} (htarget : Related ρ target target)
    (hposition : Related ρ position position) (hv : Related ρ v v) :
    Ignores c z s (setByte target position v) := by
  refine h.ref (bytesArg_agree _ htarget) (checks_bytesArg _ _) fun r =>
    h.check (byte_agree _ hv) (checks_byte _ _) fun b => .asks rfl ?_
  exact h.check (heldIndex_agree _ _ htarget hposition) (checks_heldIndex (fun _ _ => trivial) _ _)
    fun i => (Ignores.update rfl).map _

theorem filledBytes_ignores (h : Hides ρ c s) (hv : Related ρ v v) {fill : Option Value}
    (hfill : ∀ x ∈ fill, Related ρ x x) : Ignores c z s (filledBytes v fill) := by
  refine h.check (length_agree _ hv) (checks_length _ v) fun n => ?_
  cases fill with
  | some x => exact h.check (byte_agree _ (hfill x rfl)) (checks_byte _ x) fun _ => .make rfl
  | none => exact Ignores.make (f := fun s => s.newBytes (Array.replicate n 0)) rfl

theorem run_ignores (p : Vectors) (h : Hides ρ c s) (hargs : ∀ v ∈ args, Related ρ v v) :
    Ignores c z s (p.run args) := by
  have hread {p : Vectors} {args : List Value} (hargs : ∀ v ∈ args, Related ρ v v)
      (hchecks : Checks (p.run args)) : Ignores c z s (p.run args) :=
    h.value (run_agree p (List.forall₂_same.2 hargs)) hchecks
  unfold run
  split
  · exact .make rfl
  · exact h.check (length_agree _ (hargs _ (by simp))) (checks_length _ _) fun _ => .make rfl
  · exact h.check (length_agree _ (hargs _ (by simp))) (checks_length _ _) fun _ => .make rfl
  · exact .pure _
  · exact hread (p := .vectorLength) hargs ((checks_vectorArg _ _).bind fun _ => (checks_ask _).map _)
  · exact hread (p := .vectorRef) hargs (checks_element _ _)
  · exact setElement_ignores h (hargs _ (by simp)) (hargs _ (by simp))
  · exact h.ref (vectorArg_agree _ (hargs _ (by simp))) (checks_vectorArg _ _) fun r =>
      .make (Store.listWithTail_setCar h.bound _ _)
  · exact properList_ignores h _ _ (hargs _ (by simp)) fun _ _ => .make rfl
  · exact h.check (.mapM_same (List.forall₂_same.2 hargs) fun _ _ _ hv => byte_agree _ hv)
      (checks_mapM (checks_byte _) _) fun _ => .make rfl
  · exact filledBytes_ignores h (hargs _ (by simp)) (by simp)
  · exact filledBytes_ignores h (hargs _ (by simp)) (by simpa using hargs _ (by simp))
  · exact .pure _
  · exact hread (p := .bytevectorLength) hargs ((checks_bytesArg _ _).bind fun _ => (checks_ask _).map _)
  · exact hread (p := .bytevectorRef) hargs (checks_byteAt _ _)
  · exact setByte_ignores h (hargs _ (by simp)) (hargs _ (by simp)) (hargs _ (by simp))
  · exact .throw _

end Vectors

namespace Ports

theorem writeTo_ignores (r : Ref) (text : String) : Ignores c z s (writeTo r text) := by
  refine .asks rfl ?_
  cases (s.port r).write text with
  | ok result =>
      exact (Ignores.update (f := fun s => (s.setPort r result.1).print result.2) rfl).map
        fun _ => Value.void
  | error fault => exact .throw _

theorem takeFrom_ignores (r : Ref)
    (op : Port → Console → Except Port.Stop (Option Char × Port × Console)) :
    Ignores c z s (takeFrom r op) := by
  refine .asks rfl (.asks rfl ?_)
  cases op (s.port r) s.console with
  | ok result =>
      obtain ⟨x, port, console⟩ := result
      refine Ignores.bind (.update rfl) fun _ _ _ => ?_
      cases x <;> exact .pure _
  | error stop => cases stop <;> exact .throw _

theorem run_ignores (p : Ports) (h : Hides ρ c s) (hargs : ∀ v ∈ args, Related ρ v v) :
    Ignores c z s (p.run args) := by
  have hport {standard : Ref} {name : String} {more : List Value} {f : Ref → Eval Value}
      (hstandard : ∀ ⦃s t⦄, Similar ρ s t → ρ .port standard standard)
      (hmore : ∀ v ∈ more, Related ρ v v) (hf : ∀ r, Ignores c z s (f r)) :
      Ignores c z s (portRef name standard more >>= f) :=
    h.ref (portRef_agree name hstandard (List.forall₂_same.2 hmore)) (checks_portRef _ _ _) hf
  have hstdin : ∀ ⦃s t⦄, Similar ρ s t → ρ .port Store.stdin Store.stdin := fun _ _ hs => hs.stdin
  have hstdout : ∀ ⦃s t⦄, Similar ρ s t → ρ .port Store.stdout Store.stdout := fun _ _ hs => hs.stdout
  unfold run
  split
  · have hv := hargs _ List.mem_cons_self
    exact hport hstdout (fun v hv => hargs v (by simp [hv])) fun r =>
      .asks ((h.similar_setCar z).displayed hv) (writeTo_ignores r _)
  · have hv := hargs _ List.mem_cons_self
    exact hport hstdout (fun v hv => hargs v (by simp [hv])) fun r =>
      .asks ((h.similar_setCar z).written hv) (writeTo_ignores r _)
  · exact hport hstdout hargs fun r => writeTo_ignores r _
  · have hv := hargs _ List.mem_cons_self
    exact h.check (char_agree _ hv) (checks_char _ _) fun x =>
      hport hstdout (fun v hv => hargs v (by simp [hv])) fun r => writeTo_ignores r _
  · exact hport hstdin hargs fun r => takeFrom_ignores r _
  · exact hport hstdin hargs fun r => takeFrom_ignores r _
  · refine hport hstdin hargs fun r => .asks rfl ?_
    cases (s.port r).ready with
    | ok _ => exact .pure _
    | error fault => exact .throw _
  · exact (Ignores.update rfl).map _
  · exact wrongType_ignores h _ _ (hargs _ (by simp))
  · exact h.value (isPort_agree _ (hargs _ (by simp))) (checks_isPort _ _)
  · exact h.value (isPort_agree _ (hargs _ (by simp))) (checks_isPort _ _)
  · exact h.check (string_agree _ (hargs _ (by simp))) (checks_string _ _) fun _ => .make rfl
  · exact .make rfl
  · refine .asks rfl ?_
    cases (s.port _).output with
    | ok text => exact Ignores.make (f := fun s => s.newString text) rfl
    | error fault => exact .throw _
  · exact wrongType_ignores h _ _ (hargs _ (by simp))
  · exact .pure _
  · exact .pure _
  · exact .pure _
  · exact .throw _

end Ports

theorem Reply.Related.eq_of_diagonal {r r' : Reply} (h : Reply.Related ρ r r')
    (hρ : ∀ ⦃k a b⦄, ρ k a b → a = b) : r = r' := by
  cases h with
  | value hv => rw [hv.eq_of_diagonal hρ]
  | call hp hvs => rw [hp.eq_of_diagonal hρ, eq_of_forall₂_related hvs hρ]

/-- A native procedure does not notice what it cannot reach from its arguments. -/
theorem call_ignores (p : Native) (h : Hides ρ c s) (hargs : ∀ v ∈ args, Related ρ v v) :
    Ignores c z s (p.call args) := by
  unfold call Eval.checkArity
  split
  · cases p with
    | numeric p =>
        exact (h.value (Numeric.run_agree p (List.forall₂_same.2 hargs)) (p.checks_run args)).map _
    | lists p => exact (p.run_ignores h hargs).map _
    | texts p => exact (p.run_ignores h hargs).map _
    | vectors p => exact (p.run_ignores h hargs).map _
    | ports p => exact (p.run_ignores h hargs).map _
    | control p =>
        exact h.agree (Control.run_agree p (List.forall₂_same.2 hargs)) (p.checks_run args).readOnly
          fun _ _ _ hρ hab => hab.eq_of_diagonal hρ
  · exact .throw _

end Native

end LittleScheme

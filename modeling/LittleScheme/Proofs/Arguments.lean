import LittleScheme.Native.Call
import LittleScheme.Proofs.Comparison
import LittleScheme.Proofs.Scopes

/-!
# Computations on related values

The small computations of the evaluators and the readers of arguments agree on related values in
similar stores: they give the same data, or stop with the same message.
-/
namespace LittleScheme

open Value (Related)

/-- Results that hold no references and are the same. -/
def Same {α : Type} : Renaming → α → α → Prop := fun _ a b => a = b

namespace Agree

variable {α β γ : Type} {ρ : Renaming} {R : Renaming → β → γ → Prop}

theorem same (a : α) : Agree ρ (Pure.pure a) (Pure.pure a) Same := pure rfl

/-- Go on with the same data on both sides. -/
theorem bind_same {x y : Eval α} {f : α → Eval β} {g : α → Eval γ} (hx : Agree ρ x y Same)
    (hf : ∀ ρ' a, ρ.Le ρ' → Agree ρ' (f a) (g a) R) : Agree ρ (x >>= f) (y >>= g) R := by
  refine hx.bind fun ρ' a b hle hab => ?_
  obtain rfl : a = b := hab
  exact hf ρ' a hle

/-- Return the same data on both sides, once they have been turned into a value. -/
theorem map_same {x y : Eval α} {f : α → β} {g : α → γ} (hx : Agree ρ x y Same)
    (hf : ∀ ρ' a, R ρ' (f a) (g a)) :
    Agree ρ (x >>= fun a => Pure.pure (f a)) (y >>= fun a => Pure.pure (g a)) R :=
  hx.bind_same fun ρ' a _ => pure (hf ρ' a)

theorem mapM_related {f : Value → Eval β} {g : Value → Eval γ} {vs ws : List Value}
    (hvs : List.Forall₂ (Related ρ) vs ws) (hR : ∀ ⦃ρ₁ ρ₂ c d⦄, ρ₁.Le ρ₂ → R ρ₁ c d → R ρ₂ c d)
    (h : ∀ ρ' v w, Related ρ' v w → Agree ρ' (f v) (g w) R) :
    Agree ρ (vs.mapM f) (ws.mapM g) fun ρ' => List.Forall₂ (R ρ') :=
  mapM hR (hvs.imp fun v w hv ρ' hle => h ρ' v w (hv.mono hle)) (.refl ρ)

theorem mapM_same {f g : Value → Eval β} {vs ws : List Value}
    (hvs : List.Forall₂ (Related ρ) vs ws)
    (h : ∀ ρ' v w, Related ρ' v w → Agree ρ' (f v) (g w) Same) :
    Agree ρ (vs.mapM f) (ws.mapM g) Same := by
  refine (mapM_related (R := Same) hvs (fun _ _ _ _ _ h => h) h).mono fun ρ' as bs _ has => ?_
  have heq := congrFun (congrFun (List.forall₂_eq_eq_eq (α := β)) as) bs
  exact heq.mp has

theorem foldlM_same {f : β → α → Eval β} {as : List α} {b : β}
    (h : ∀ ρ' b a, Agree ρ' (f b a) (f b a) Same) :
    Agree ρ (as.foldlM f b) (as.foldlM f b) Same := by
  induction as generalizing b ρ with
  | nil => exact same b
  | cons a as ih =>
      rw [List.foldlM_cons]
      exact (h ρ b a).bind_same fun ρ' b _ => ih

end Agree

variable {ρ : Renaming} {v w : Value}

namespace Eval

theorem written_agree (hv : Related ρ v w) : Agree ρ (written v) (written w) Same :=
  .ask fun _ _ hs => hs.written hv

theorem fail_agree {α β : Type} {Q : Renaming → α → β → Prop} (fault : Fault) :
    Agree ρ (fail fault : Eval α) (fail fault : Eval β) Q := .raise _

theorem malformed_agree {α β : Type} {Q : Renaming → α → β → Prop} (fault : SyntaxFault) :
    Agree ρ (malformed fault : Eval α) (malformed fault : Eval β) Q := .raise _

theorem ofArithmetic_agree (result : Except ArithmeticFault Number) :
    Agree ρ (ofArithmetic result) (ofArithmetic result) Same := by
  cases result with
  | ok n => exact .same n
  | error fault => exact .raise _

theorem ofPort_agree {α : Type} (result : Except PortFault α) :
    Agree ρ (ofPort result) (ofPort result) Same := by
  cases result with
  | ok a => exact .same a
  | error fault => exact .raise _

theorem checkArity_agree (name : String) (arity : Arity) (count : Nat) :
    Agree ρ (checkArity name arity count) (checkArity name arity count) Same := by
  unfold checkArity
  split
  · exact .same ()
  · exact .raise _

theorem lookup_agree {a b : Ref} (hr : ρ .scope a b) (name : String) :
    Agree ρ (lookup a name) (lookup b name) Related := by
  refine .bind (Q := fun ρ' => Option.Rel (Related ρ')) (.ask fun s t hs => hs.get? hr name)
    fun ρ' x y _ hxy => ?_
  cases hxy with
  | some hv => exact .pure hv
  | none => exact .raise _

theorem bind_agree {a b : Ref} (hr : ρ .scope a b) (name : String) (hv : Related ρ v w) :
    Agree ρ (bind a name v) (bind b name w) Related := by
  refine .bind (.update (fun s t hs => hs.bind hr name hv) (fun s => s.grows_bind a name v)
    fun t => t.grows_bind b name w) fun ρ' _ _ hle _ => ?_
  exact .pure (hv.mono hle)

theorem assign_agree {a b : Ref} (hr : ρ .scope a b) (name : String) (hv : Related ρ v w) :
    Agree ρ (assign a name v) (assign b name w) Related := by
  have hfind : Agree ρ (find a name) (find b name) fun ρ' => ρ' .scope := by
    refine .bind (Q := fun ρ' => Option.Rel (ρ' .scope)) (.ask fun s t hs => hs.find? hr name)
      fun ρ' x y _ hxy => ?_
    cases hxy with
    | some hr => exact .pure hr
    | none => exact .raise _
  exact hfind.bind fun ρ' c d hle hcd => bind_agree hcd name (hv.mono hle)

theorem enterCall_agree {a b : Ref} (hr : ρ .closure a b) {vs ws : List Value}
    (hvs : List.Forall₂ (Related ρ) vs ws) :
    Agree ρ (enterCall a vs) (enterCall b ws) fun ρ' => ρ' .scope := by
  refine .bind (.ask fun s t hs => hs.closure hr) fun ρ' c d hle hcd => ?_
  rw [show c.title = d.title by unfold Closure.title; rw [hcd.name],
    show c.arity = d.arity by unfold Closure.arity; rw [hcd.params, hcd.rest], hvs.length_eq]
  refine (checkArity_agree _ _ _).bind_same fun ρ'' _ hle' => ?_
  exact .make fun s t hs => hs.enterCall (hle' (hle hr))
    (hvs.imp fun _ _ hv => hv.mono (hle.trans hle'))

theorem newRoot_agree : Agree ρ newRoot newRoot fun ρ' => ρ' .scope :=
  .make fun _ _ hs => hs.pushScope ⟨fun _ => by simp, .none, .none, .none⟩

end Eval

namespace Native.Argument

theorem wrongType_agree {α β : Type} {Q : Renaming → α → β → Prop} (name : String)
    (expected : Expected) (hv : Related ρ v w) :
    Agree ρ (wrongType name expected v) (wrongType name expected w) Q :=
  (Eval.written_agree hv).bind_same fun _ _ _ => .raise _

theorem wrongCount_agree {α β : Type} {Q : Renaming → α → β → Prop} {name : String} {arity : Arity}
    {vs ws : List Value} (hvs : List.Forall₂ (Related ρ) vs ws) :
    Agree ρ (wrongCount name arity vs) (wrongCount name arity ws) Q := by
  unfold wrongCount
  rw [hvs.length_eq]
  exact .raise _

theorem number_agree (name : String) (hv : Related ρ v w) :
    Agree ρ (number name v) (number name w) Same := by
  have hv' := hv
  cases hv with
  | number n => exact .same n
  | _ => exact wrongType_agree name _ hv'

theorem numbers_agree (name : String) {vs ws : List Value} (hvs : List.Forall₂ (Related ρ) vs ws) :
    Agree ρ (numbers name vs) (numbers name ws) Same :=
  .mapM_same hvs fun _ _ _ hv => number_agree name hv

theorem integer_agree (name : String) (hv : Related ρ v w) :
    Agree ρ (integer name v) (integer name w) Same := by
  have hv' := hv
  cases hv with
  | number n =>
      cases n with
      | integer n => exact .same _
      | real x => exact wrongType_agree name _ hv'
  | _ => exact wrongType_agree name _ hv'

/-- An integer that is checked, and then used or shown in a message. -/
theorem checked_agree {α : Type} {p : Int → Prop} [DecidablePred p] {f : Int → α}
    {fault : Int → Fault} (name : String) (hv : Related ρ v w) :
    Agree ρ (do let n ← integer name v; if p n then return f n else Eval.fail (fault n))
      (do let n ← integer name w; if p n then return f n else Eval.fail (fault n)) Same := by
  refine (integer_agree name hv).bind_same fun ρ' n _ => ?_
  split
  · exact .same _
  · exact .raise _

theorem index_agree (name : String) (bound : Nat) (hv : Related ρ v w) :
    Agree ρ (index name bound v) (index name bound w) Same := checked_agree name hv

theorem length_agree (name : String) (hv : Related ρ v w) :
    Agree ρ (length name v) (length name w) Same := checked_agree name hv

theorem byte_agree (name : String) (hv : Related ρ v w) :
    Agree ρ (byte name v) (byte name w) Same := checked_agree name hv

theorem string_agree (name : String) (hv : Related ρ v w) :
    Agree ρ (string name v) (string name w) Same := by
  have hv' := hv
  cases hv with
  | string hr => exact .ask fun s t hs => hs.string hr
  | _ => exact wrongType_agree name _ hv'

theorem char_agree (name : String) (hv : Related ρ v w) :
    Agree ρ (char name v) (char name w) Same := by
  have hv' := hv
  cases hv with
  | char c => exact .same c
  | _ => exact wrongType_agree name _ hv'

theorem properList_agree (name : String) (expected : Expected) (hv : Related ρ v w) :
    Agree ρ (properList name expected v) (properList name expected w)
      fun ρ' => List.Forall₂ (Related ρ') := by
  refine .bind (Q := fun ρ' => Option.Rel (List.Forall₂ (Related ρ')))
    (.ask fun s t hs => hs.elements? hv) fun ρ' x y hle hxy => ?_
  cases hxy with
  | some hvs => exact .pure hvs
  | none => exact wrongType_agree name expected (hv.mono hle)

end Native.Argument
end LittleScheme

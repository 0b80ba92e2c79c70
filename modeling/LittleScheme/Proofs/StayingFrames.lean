import LittleScheme.Proofs.Choices
import LittleScheme.Proofs.Staying

/-!
# Stacks of frames that stay in their realm

A frame works on a copy of its own, which nobody else has. While it waits for operands its pairs are
kept, but for those that receive the values; so a run of some frames changes their own copies, the
pairs that receive their values and what is within reach, and the values are within reach.
-/
namespace LittleScheme

theorem Store.ListAt.mem_of_cdr {s : Store} {v : Value} {r q : Ref} {cs : List Ref}
    (h : s.ListAt v (r :: cs)) (hq : s.cdr r = .pair q) : q ∈ cs := by
  have hrest := h.1.2
  rw [hq] at hrest
  cases cs with
  | nil => exact absurd hrest.1 (by simp)
  | cons c cs =>
      obtain ⟨⟨⟩, -⟩ := hrest
      simp

namespace Realm

/-! ### Pairs of frames -/

/-- A pair that is neither within reach nor text. -/
def Apart (w : Realm) (r : Ref) : Prop := ¬ w.shared .pair r r ∧ ¬ w.text r

/-- A list of expressions in pairs that nobody else has. -/
structure Own (w : Realm) (s : Store) (v : Value) (r : Ref) (cs : List Ref) : Prop where
  list : s.ListAt v (r :: cs)
  apart : ∀ c ∈ r :: cs, w.Apart c
  exprs : ∀ c ∈ r :: cs, w.Expr s (s.car c)
  quotes : w.Quotes s r

/-- What a frame that has done nothing yet holds: a list of its own, or a value. -/
inductive Fresh (w : Realm) (s : Store) (v : Value) : List Ref → Prop
  | shared (h : w.Shared v) : Fresh w s v []
  | own {r : Ref} {cs : List Ref} (h : w.Own s v r cs) : Fresh w s v (r :: cs)

/-- Where a value may be delivered. -/
def Receives (w : Realm) (n : Nat) (destination : Option Ref) : Prop :=
  ∀ c, destination = some c → c < n ∧ (w.shared .pair c c ∨ w.Apart c)

variable {W W' : Ref → Prop} {w w' : Realm} {s s' : Store} {v : Value} {r : Ref} {cs : List Ref}

theorem Becomes.not_shared (h : w.Becomes W s w' s') {k : Kind} {r : Ref} (hr : r < s.count k)
    (hshared : ¬ w.shared k r r) : ¬ w'.shared k r r := by
  intro hr'
  rcases h.gains.fresh hr' with hold | ⟨hnew, -⟩
  · exact hshared hold
  · exact Nat.not_lt.2 hnew hr

theorem Becomes.apart (h : w.Becomes W s w' s') (hr : r < s.pairs.size) (hapart : w.Apart r)
    (hW : ¬ W r) : w'.Apart r := by
  refine ⟨h.not_shared (k := .pair) hr hapart.1, fun htext => ?_⟩
  rcases h.newText htext with hold | hnew | hwritten
  · exact hapart.2 hold
  · exact Nat.not_lt.2 hnew hr
  · exact hW hwritten

theorem Becomes.receives (h : w.Becomes W s w' s') {n : Nat} {d : Option Ref} (hn : n ≤ s.pairs.size)
    (hd : w.Receives n d) (hW : ∀ c, d = some c → ¬ W c) : w'.Receives n d := by
  intro c hc
  obtain ⟨hlt, hreceives⟩ := hd c hc
  refine ⟨hlt, hreceives.imp (fun h' => h.gains.le h') fun hapart => ?_⟩
  exact h.apart (Nat.lt_of_lt_of_le hlt hn) hapart (hW c hc)

/-- What belongs to a frame stays as it is while others run. -/
theorem Becomes.own (h : w.Becomes W s w' s') (hw : w.Holds s) (hown : w.Own s v r cs)
    (hW : ∀ c ∈ r :: cs, ¬ W c) : w'.Own s' v r cs := by
  have hpair : ∀ c ∈ r :: cs, s'.pair c = s.pair c :=
    fun c hc => h.pair (hown.list.2 c hc) (hown.apart c hc).1 (hW c hc)
  refine ⟨hown.list.congr (fun c hc => Store.cdr_eq_of_pair_eq (hpair c hc)) (h.count .pair),
    fun c hc => h.apart (hown.list.2 c hc) (hown.apart c hc) (hW c hc), fun c hc => ?_, ?_⟩
  · rw [Store.car_eq_of_pair_eq (hpair c hc)]
    exact h.expr hw (hown.exprs c hc)
  · intro hquote q hq
    have hsame := hpair r (by simp)
    rw [Store.car_eq_of_pair_eq hsame] at hquote
    rw [Store.cdr_eq_of_pair_eq hsame] at hq
    rw [Store.car_eq_of_pair_eq (hpair q (List.mem_cons_of_mem _ (hown.list.mem_of_cdr hq)))]
    exact h.shared (hown.quotes hquote q hq)

theorem Becomes.fresh (h : w.Becomes W s w' s') (hw : w.Holds s) (hv : w.Fresh s v cs)
    (hW : ∀ c ∈ cs, ¬ W c) : w'.Fresh s' v cs := by
  cases hv with
  | shared hv => exact .shared (h.shared hv)
  | own hown => exact .own (h.own hw hown hW)

/-- A pair that nobody else has is changed. -/
theorem Holds.changeApart (hw : w.Holds s) (hr : w.Apart r) (hcount : ∀ k, s'.count k = s.count k)
    (hsame : ∀ k q, ¬ (k = .pair ∧ q = r) → s.SameAt s' k q) : w.Becomes (· = r) s w s' := by
  have hgains : Gains w.shared s s w.shared := ⟨.refl _, fun _ _ _ hr => .inl hr⟩
  have hpair : ∀ ⦃q⦄, q ≠ r → s'.pair q = s.pair q := fun q hq => hsame .pair q (by simp [hq])
  have htext : ∀ ⦃q⦄, w.text q → w.text q ∧ s'.pair q = s.pair q := by
    intro q hq
    refine ⟨hq, hpair ?_⟩
    rintro rfl
    exact hr.2 hq
  have hclosure : ∀ ⦃a⦄, a < s.closures.size → s'.closure a = s.closure a :=
    fun a _ => hsame .closure a (by simp)
  have hshared : ∀ k a b, w.shared k a b → ¬ (k = .pair ∧ a = r) := by
    rintro k a b hab ⟨rfl, rfl⟩
    obtain rfl := hw.diagonal hab
    exact hr.1 hab
  have hsim : Similar w.shared s' s' := by
    refine hw.similar.congr (fun k a b hab => hsame k a (hshared k a b hab)) (fun k a b hab => ?_)
      (fun k => (hcount k).ge) (fun k => (hcount k).ge) rfl
    obtain rfl := hw.diagonal hab
    exact hsame k a (hshared k a a hab)
  exact ⟨hw.advance hsim hw.diagonal hgains (hcount .pair).ge htext hclosure (fun _ hq => .inl hq)
    fun _ ha => .inl ha, hgains, htext, fun _ hq => .inl hq, fun k => (hcount k).ge,
    fun _ _ _ hq => hpair hq, fun q _ _ => hsame .scope q (by simp), hclosure⟩

/-- A value is delivered. -/
theorem Holds.deliver (hw : w.Holds s) (hr : w.shared .pair r r ∨ w.Apart r) (hv : w.Shared v) :
    w.Becomes (· = r) s w (s.setCar r v) := by
  rcases hr with hr | hr
  · exact hw.setCar hr hv
  · exact hw.changeApart hr (s.count_setCar r v) fun _ _ hk => s.sameAt_setCar hk v

/-- The rest of a list is dropped, or what a pair of it holds is replaced. -/
theorem Holds.dropFrom (hw : w.Holds s) (hr : w.Apart r) (v : Value) :
    w.Becomes (· = r) s w (s.setCdr r v) :=
  hw.changeApart hr (s.count_setCdr r v) fun _ _ hk => s.sameAt_setCdr hk v

theorem Holds.replaceCar (hw : w.Holds s) (hr : w.Apart r) (v : Value) :
    w.Becomes (· = r) s w (s.setCar r v) :=
  hw.changeApart hr (s.count_setCar r v) fun _ _ hk => s.sameAt_setCar hk v

/-! ### Copies -/

theorem Holds.apart_of_le (hw : w.Holds s) (hr : s.pairs.size ≤ r) : w.Apart r :=
  ⟨fun hshared => Nat.not_lt.2 hr (hw.similar.bound hshared).1,
    fun htext => Nat.not_lt.2 hr (hw.text htext).bound⟩

/-- A list in new pairs belongs to whoever made it. -/
theorem Holds.ownList (hw : w.Holds s) {v : Value} {vs : List Value}
    (hvs : ∀ x ∈ v :: vs, w.Expr s x) (hquote : v = .keyword .quote → ∀ q, vs.head? = some q → w.Shared q) :
    w.Becomes W s w (s.list (v :: vs)).2 ∧
      w.Own (s.list (v :: vs)).2 (s.list (v :: vs)).1 (s.pairs.size + vs.length)
        (Store.newCells s.pairs.size vs.length) := by
  have hkept := hw.keeps (W := W) (s.keeps_listWithTail (v :: vs) .nil)
  have hlist := s.listAt_list (v :: vs)
  have hcars := s.map_car_list (v :: vs)
  simp only [List.length_cons, Store.newCells] at hlist hcars
  refine ⟨hkept, hlist, fun c hc => ?_, fun c hc => ?_, fun hhead q hq => ?_⟩
  · exact hw.apart_of_le (Store.mem_newCells (k := vs.length + 1).1 hc).1
  · have hmem := List.mem_map_of_mem (f := (s.list (v :: vs)).2.car) hc
    rw [hcars] at hmem
    exact hkept.expr hw (hvs _ hmem)
  · rw [(List.cons.inj hcars).1] at hhead
    refine hquote hhead _ ?_
    have hrest := hlist.1.2
    rw [hq] at hrest
    have htail := (List.cons.inj hcars).2
    generalize Store.newCells s.pairs.size vs.length = cells at hrest htail
    cases cells with
    | nil => exact absurd hrest.1 (by simp)
    | cons c cells =>
        obtain ⟨⟨⟩, -⟩ := hrest
        exact (congrArg List.head? htail).symm

/-- The value is no proper list in pairs. -/
def Improper (s : Store) (v : Value) : Prop := v.isPair = true → s.isList v = false

/-- The pairs along a value within reach are as they were when objects have been made. -/
theorem Improper.keeps (h : Improper s v) (hw : w.Holds s) (hv : w.Shared v) (hkeeps : s.Keeps s') :
    Improper s' v := by
  intro hpair
  rw [Bool.eq_false_iff]
  intro hl
  obtain ⟨cs, hchain⟩ := Store.isList_iff.1 hl
  refine absurd (Store.isList_iff.2 ⟨cs, ?_⟩) (Bool.eq_false_iff.1 (h hpair))
  clear hl h hpair
  induction cs generalizing v with
  | nil => exact hchain
  | cons c cs ih =>
      obtain ⟨rfl, hrest⟩ := hchain
      cases hv with
      | pair hc =>
          rw [Store.cdr_eq_of_pair_eq (hkeeps.same .pair c (hw.similar.bound hc).1)] at hrest
          exact ⟨rfl, ih (hw.similar.cdr hc) hrest⟩

/-- The copy that a frame is made with. What is no list is not copied. -/
theorem Holds.copySpine (hw : w.Holds s) (hv : w.Expr s v) :
    ∃ cs, w.Becomes W s w (s.copySpine v).2 ∧ w.Fresh (s.copySpine v).2 (s.copySpine v).1 cs ∧
      (cs = [] → Improper (s.copySpine v).2 (s.copySpine v).1) ∧
      ∀ c ∈ cs, s.pairs.size ≤ c ∧ c < (s.copySpine v).2.pairs.size := by
  by_cases hneeds : ∃ q, v = .pair q ∧ s.isList v = true
  · obtain ⟨q, rfl, hl⟩ := hneeds
    obtain ⟨ds, hspine⟩ := hw.spine_pair hv.code hl
    have hcopy : s.copySpine (.pair q) = s.list (s.car q :: ds.map s.car) := by
      rw [Store.copySpine, hspine.list.elements?_eq]
      rfl
    have hexprs : ∀ x ∈ s.car q :: ds.map s.car, w.Expr s x := by
      intro x hx
      obtain ⟨c, hc, rfl⟩ := List.mem_map.1 (show x ∈ (q :: ds).map s.car from hx)
      exact hw.expr_car (hspine.cell hc)
    have hquote : s.car q = .keyword .quote → ∀ x, (ds.map s.car).head? = some x → w.Shared x := by
      intro hhead x hx
      cases ds with
      | nil => cases hx
      | cons d ds =>
          cases hx
          exact hw.quotes hv hhead d hspine.list.1.2.1
    obtain ⟨hkept, hown⟩ := hw.ownList (W := W) hexprs hquote
    rw [hcopy]
    exact ⟨_, hkept, .own hown, by simp, fun c hc => ⟨(Store.mem_newCells (k := (ds.map s.car).length + 1).1 hc).1,
      hown.list.2 c hc⟩⟩
  · have hcopy : s.copySpine v = (v, s) := by
      cases v with
      | pair q =>
          have hl : s.isList (.pair q) = false := by
            rw [Bool.eq_false_iff]
            exact fun hl => hneeds ⟨q, rfl, hl⟩
          rw [Store.copySpine, Store.elements?_of_not_isList hl]
      | _ => rfl
    have hshared : w.Shared v := by
      rcases hv with hv | ⟨q, rfl, hq, -⟩
      · exact hv
      · exact absurd ⟨q, rfl, (hw.text hq).list⟩ hneeds
    have himproper : Improper s v := by
      intro hpair
      rw [Bool.eq_false_iff]
      intro hl
      cases v with
      | pair q => exact hneeds ⟨q, rfl, hl⟩
      | _ => cases hpair
    rw [hcopy]
    exact ⟨[], hw.refl, .shared hshared, fun _ => himproper, by simp⟩

theorem keeps_copySpine (s : Store) (v : Value) : s.Keeps (s.copySpine v).2 := by
  unfold Store.copySpine
  split
  · split
    · exact s.keeps_listWithTail _ .nil
    · exact .refl s
  · exact .refl s

theorem keeps_copyAll (s : Store) (vs : List Value) : s.Keeps (s.copyAll vs).2 := by
  induction vs generalizing s with
  | nil => exact .refl s
  | cons v vs ih => exact (keeps_copySpine s v).trans (ih _)

/-! ### Frames that are about to begin -/

/-- A frame that has done nothing yet, with a copy in pairs from `a` up to `b`. What has not been
copied is as `P` says. -/
structure Begins (w : Realm) (P : Value → Prop) (s : Store) (a : Nat) (g : Frame) (b : Nat)
    (cs : List Ref) : Prop where
  pushed : g.pushed = false
  scope : w.shared .scope g.scope g.scope
  cells : ∀ c ∈ cs, a ≤ c ∧ c < b
  le : a ≤ b
  bound : b ≤ s.pairs.size
  fresh : w.Fresh s g.expr cs
  uncopied : cs = [] → P g.expr

/-- Frames that have done nothing yet, with copies made one after the other in pairs from `a` on. -/
def Queue (w : Realm) (P : Value → Prop) (s : Store) : Nat → List Frame → Prop
  | _, [] => True
  | a, g :: gs => ∃ b cs, w.Begins P s a g b cs ∧ w.Queue P s b gs

variable {P P' : Value → Prop}

theorem Becomes.begins (h : w.Becomes W s w' s') (hw : w.Holds s) {a b : Nat} {g : Frame}
    (hg : w.Begins P s a g b cs) (hW : ∀ c ∈ cs, ¬ W c) : w'.Begins P s' a g b cs where
  pushed := hg.pushed
  scope := h.gains.le hg.scope
  cells := hg.cells
  le := hg.le
  bound := Nat.le_trans hg.bound (h.count .pair)
  fresh := h.fresh hw hg.fresh hW
  uncopied := hg.uncopied

theorem Becomes.queue (h : w.Becomes W s w' s') (hw : w.Holds s) {a : Nat} {gs : List Frame}
    (hgs : w.Queue P s a gs) (hW : ∀ c, a ≤ c → ¬ W c) : w'.Queue P s' a gs := by
  induction gs generalizing a with
  | nil => trivial
  | cons g gs ih =>
      obtain ⟨b, cs, hg, hrest⟩ := hgs
      exact ⟨b, cs, h.begins hw hg fun c hc => hW c (hg.cells c hc).1,
        ih hrest fun c hc => hW c (Nat.le_trans hg.le hc)⟩

theorem Queue.mono {a : Nat} {gs : List Frame} (h : w.Queue P s a gs)
    (hP : ∀ g ∈ gs, P g.expr → P' g.expr) : w.Queue P' s a gs := by
  induction gs generalizing a with
  | nil => trivial
  | cons g gs ih =>
      obtain ⟨b, cs, hg, hrest⟩ := h
      exact ⟨b, cs, { hg with uncopied := fun hcs => hP g (by simp) (hg.uncopied hcs) },
        ih hrest fun g hg => hP g (by simp [hg])⟩

theorem Begins.of_le {n a b : Nat} {g : Frame} (h : w.Begins P s a g b cs) (hn : n ≤ a) :
    w.Begins P s n g b cs :=
  { h with
    cells := fun c hc => ⟨Nat.le_trans hn (h.cells c hc).1, (h.cells c hc).2⟩
    le := Nat.le_trans hn h.le }

theorem Queue.of_le {a b : Nat} {gs : List Frame} (h : w.Queue P s b gs) (hab : a ≤ b) :
    w.Queue P s a gs := by
  cases gs with
  | nil => trivial
  | cons g gs =>
      obtain ⟨b', cs, hg, hrest⟩ := h
      exact ⟨b', cs, hg.of_le hab, hrest⟩

variable {scope : Ref}

/-- A frame with a new copy is about to begin, when more objects have been made. -/
theorem Holds.begins (hw : w.Holds s) (hv : w.Expr s v) (hscope : w.shared .scope scope scope)
    (d : Option Ref) (hkeeps : (s.copySpine v).2.Keeps s') :
    ∃ cs, w.Begins (Improper s') s' s.pairs.size (Frame.fresh scope d (s.copySpine v).1)
      (s.copySpine v).2.pairs.size cs := by
  obtain ⟨cs, hkept, hfresh, himproper, hcs⟩ := hw.copySpine (W := fun _ => False) hv
  have hothers := hkept.holds.keeps (W := fun _ => False) hkeeps
  refine ⟨cs, rfl, hscope, hcs, hkept.count .pair, hothers.count .pair,
    hothers.fresh hkept.holds hfresh fun _ _ => not_false, ?_⟩
  rintro rfl
  cases hfresh with
  | shared hshared => exact (himproper rfl).keeps hkept.holds hshared hkeeps

/-- The frames for the expressions of a body. -/
theorem Holds.copyAll (hw : w.Holds s) {vs : List Value} (hvs : ∀ v ∈ vs, w.Expr s v)
    (hscope : w.shared .scope scope scope) (d : Option Ref) :
    w.Queue (Improper (s.copyAll vs).2) (s.copyAll vs).2 s.pairs.size
      ((s.copyAll vs).1.map (Frame.fresh scope d)) := by
  induction vs generalizing s with
  | nil => trivial
  | cons v vs ih =>
      have hkept := hw.keeps (W := fun _ => False) (keeps_copySpine s v)
      have hqueue := ih hkept.holds fun x hx => hkept.expr hw (hvs x (List.mem_cons_of_mem _ hx))
      obtain ⟨cs, hbegins⟩ := hw.begins (hvs v (by simp)) hscope d (keeps_copyAll (s.copySpine v).2 vs)
      exact ⟨_, cs, hbegins, hqueue⟩

/-- The frames for the operands of an application. -/
theorem Holds.forCells (hw : w.Holds s) {cells : List Ref}
    (hcells : ∀ c ∈ cells, c < s.pairs.size ∧ w.Expr s (s.car c))
    (hscope : w.shared .scope scope scope) :
    ∃ gs s', (cells.mapM (Frame.forCell scope)).run s = .ok gs s' ∧ s.Keeps s' ∧
      w.Queue (Improper s') s' s.pairs.size gs ∧
      List.Forall₂ (fun c g => g.destination = some c) cells gs := by
  induction cells generalizing s with
  | nil => exact ⟨[], s, rfl, .refl s, trivial, .nil⟩
  | cons c cells ih =>
      obtain ⟨hc, hexpr⟩ := hcells c (by simp)
      have hkeeps := keeps_copySpine s (s.car c)
      have hkept := hw.keeps (W := fun _ => False) hkeeps
      obtain ⟨gs, s', hrun, hkeeps', hqueue, hdestinations⟩ := ih hkept.holds fun q hq => by
        obtain ⟨hlt, hexpr⟩ := hcells q (List.mem_cons_of_mem _ hq)
        refine ⟨Nat.lt_of_lt_of_le hlt (hkeeps.count .pair), ?_⟩
        rw [Store.car_eq_of_pair_eq (hkeeps.same .pair q hlt)]
        exact hkept.expr hw hexpr
      obtain ⟨cs, hbegins⟩ := hw.begins hexpr hscope (some c) hkeeps'
      refine ⟨Frame.fresh scope (some c) (s.copySpine (s.car c)).1 :: gs, s', ?_,
        hkeeps.trans hkeeps', ⟨_, cs, hbegins, hqueue⟩, .cons rfl hdestinations⟩
      have hnew : (Frame.forCell scope c).run s =
          .ok (Frame.fresh scope (some c) (s.copySpine (s.car c)).1) (s.copySpine (s.car c)).2 := rfl
      rw [List.mapM_cons, Eval.run_bind_ok hnew, Eval.run_bind_ok hrun]
      rfl

/-! ### Frames that go on -/

/-- What has arrived where a form waits for a value. -/
def Arrived (w : Realm) (s : Store) : Value → List Ref → Prop
  | .keyword .define, cs | .keyword .set, cs => ∀ a b, cs = [a, b] → w.Shared (s.car b)
  | .keyword .and, cs | .keyword .or, cs | .keyword .cond, cs =>
      ∀ a rest, cs = a :: rest → w.Shared (s.car a)
  | .keyword _, _ => True
  | head, cs => w.Shared head ∧ ∀ c ∈ cs, w.Shared (s.car c)

theorem arrived_of_shared {head : Value} (hhead : w.Shared head) (hcs : ∀ c ∈ cs, w.Shared (s.car c)) :
    w.Arrived s head cs := by
  unfold Arrived
  split
  · rintro a b rfl
    exact hcs b (by simp)
  · rintro a b rfl
    exact hcs b (by simp)
  · rintro a rest rfl
    exact hcs a (by simp)
  · rintro a rest rfl
    exact hcs a (by simp)
  · rintro a rest rfl
    exact hcs a (by simp)
  · trivial
  · exact ⟨hhead, hcs⟩

/-- A frame that may take a step, with the pairs that belong to it. The value of the test of a clause
arrives in a pair put in the place of the clause, which belongs to the frame as well. -/
inductive Ready (w : Realm) (s : Store) (f : Frame) : List Ref → Prop
  | shared (h : w.Shared f.expr) : Ready w s f []
  | own {r : Ref} {cs : List Ref} (h : w.Own s f.expr r cs)
      (harrived : f.pushed = true → w.Arrived s (s.car r) cs) : Ready w s f (r :: cs)
  | clause {r a q : Ref} {cs : List Ref} (hpushed : f.pushed = true)
      (hlist : s.ListAt f.expr (r :: a :: cs)) (hbound : q < s.pairs.size)
      (hapart : ∀ c ∈ q :: r :: a :: cs, w.Apart c)
      (hhead : s.car r = .keyword .cond) (hclause : s.car a = .pair q) (htest : w.Shared (s.car q))
      (hbody : w.Code (s.cdr q)) (hexprs : ∀ c ∈ cs, w.Expr s (s.car c)) :
      Ready w s f (q :: r :: a :: cs)

theorem Fresh.ready {f : Frame} (h : w.Fresh s f.expr cs) (hpushed : f.pushed = false) :
    w.Ready s f cs := by
  cases h with
  | shared hv => exact .shared hv
  | own hown => exact .own hown fun h => absurd (hpushed.symm.trans h) (by simp)

/-- A value has been delivered to a pair that nobody else has. -/
def Arrives (w' : Realm) (s s' : Store) (c : Ref) : Prop :=
  ¬ w'.shared .pair c c → w'.Apart c ∧ w'.Shared (s'.car c) ∧ s'.cdr c = s.cdr c

/-- A value that is delivered later is delivered from before as well. -/
theorem Becomes.arrives (h : w.Becomes W s w' s') {w'' : Realm} {s'' : Store}
    (h' : w'.Becomes W' s' w'' s'') {c : Ref} (hc : c < s.pairs.size) (hW : ¬ W c)
    (harrives : w''.Arrives s' s'' c) : w''.Arrives s s'' c := by
  intro hshared
  obtain ⟨hapart, hcar, hcdr⟩ := harrives hshared
  have hsame := h.pair hc (fun hold => hshared (h'.gains.le (h.gains.le hold))) hW
  exact ⟨hapart, hcar, hcdr.trans (Store.cdr_eq_of_pair_eq hsame)⟩

/-! ### Frames that have run -/

/-- A frame with the pairs `cs` has run to its end: its value has been delivered, and besides what is
within reach only its own pairs have changed. -/
structure Ran (cs : List Ref) (d : Option Ref) (w : Realm) (s : Store) (w' : Realm) (s' : Store) :
    Prop where
  becomes : w.Becomes (fun r => r ∈ cs ∨ d = some r) s w' s'
  arrives : ∀ c, d = some c → w'.Arrives s s' c

section

variable {d : Option Ref} {c : Ref}

theorem Ran.pair_eq (h : Ran cs d w s w' s') (hc : c < s.pairs.size) (hcs : c ∉ cs)
    (hshared : ¬ w.shared .pair c c) (hd : d ≠ some c) : s'.pair c = s.pair c :=
  h.becomes.pair hc hshared (not_or.2 ⟨hcs, hd⟩)

/-- A pair of someone else stays with them, also when it has received the value. -/
theorem Ran.apart (h : Ran cs d w s w' s') (hc : c < s.pairs.size) (hcs : c ∉ cs) (hapart : w.Apart c) :
    w'.Apart c := by
  by_cases hd : d = some c
  · exact (h.arrives c hd (h.becomes.not_shared (k := .pair) hc hapart.1)).1
  · exact h.becomes.apart hc hapart (not_or.2 ⟨hcs, hd⟩)

theorem Ran.cdr_eq (h : Ran cs d w s w' s') (hc : c < s.pairs.size) (hcs : c ∉ cs)
    (hshared : ¬ w'.shared .pair c c) : s'.cdr c = s.cdr c := by
  by_cases hd : d = some c
  · exact (h.arrives c hd hshared).2.2
  · exact Store.cdr_eq_of_pair_eq (h.pair_eq hc hcs (fun h' => hshared (h.becomes.gains.le h')) hd)

theorem Ran.receives (h : Ran cs d w s w' s') {n : Nat} {d' : Option Ref} (hn : n ≤ s.pairs.size)
    (hd' : w.Receives n d') (hcs : ∀ c, d' = some c → c ∉ cs) : w'.Receives n d' := by
  intro c hc
  obtain ⟨hlt, hreceives⟩ := hd' c hc
  exact ⟨hlt, hreceives.imp (fun h' => h.becomes.gains.le h')
    (h.apart (Nat.lt_of_lt_of_le hlt hn) (hcs c hc))⟩

theorem Ran.queue (h : Ran cs d w s w' s') (hw : w.Holds s) {b : Nat} {gs : List Frame}
    (hgs : w.Queue P s b gs) (hcs : ∀ c ∈ cs, c < b) (hd : ∀ c, d = some c → c < b) :
    w'.Queue P s' b gs := by
  refine h.becomes.queue hw hgs fun c hc => ?_
  rintro (hmem | hdc)
  · exact Nat.not_lt.2 hc (hcs c hmem)
  · exact Nat.not_lt.2 hc (hd c hdc)

end

/-- The pairs that frames with copies from `a` on write. -/
def Written (a : Nat) (gs : List Frame) (r : Ref) : Prop := a ≤ r ∨ ∃ g ∈ gs, g.destination = some r

/-- Frames with copies from `a` on have run to their end one after the other. -/
structure RanAll (a : Nat) (gs : List Frame) (w : Realm) (s : Store) (w' : Realm) (s' : Store) :
    Prop where
  becomes : w.Becomes (Written a gs) s w' s'
  arrives : ∀ g ∈ gs, ∀ c, g.destination = some c → w'.Arrives s s' c

theorem Holds.ranNone (hw : w.Holds s) (a : Nat) : RanAll a [] w s w s :=
  ⟨hw.refl, fun _ hg => absurd hg List.not_mem_nil⟩

/-- A frame has run, and then those after it. -/
theorem Ran.all {a b : Nat} {g : Frame} {gs : List Frame} {w₁ w₂ : Realm} {s₁ s₂ : Store}
    (h : Ran cs g.destination w s w₁ s₁) (hbegins : w.Begins P s a g b cs)
    (hreceives : ∀ g' ∈ g :: gs, w.Receives a g'.destination) (h' : RanAll b gs w₁ s₁ w₂ s₂) :
    RanAll a (g :: gs) w s w₂ s₂ := by
  have ha : a ≤ s.pairs.size := Nat.le_trans hbegins.le hbegins.bound
  have hcs : ∀ c < a, c ∉ cs := fun c hc hmem => Nat.not_lt.2 (hbegins.cells c hmem).1 hc
  refine ⟨(h.becomes.mono fun r hr => ?_).trans h'.becomes fun r hr => ?_, fun g' hg' c hc hshared => ?_⟩
  · exact hr.imp (fun hmem => (hbegins.cells r hmem).1) fun hd => ⟨g, by simp, hd⟩
  · exact .inl (hr.imp (Nat.le_trans hbegins.le) fun ⟨g', hg', hd⟩ => ⟨g', by simp [hg'], hd⟩)
  have hlt : c < a := (hreceives g' hg' c hc).1
  have hlt' := Nat.lt_of_lt_of_le hlt ha
  have hshared₁ : ¬ w₁.shared .pair c c := fun h => hshared (h'.becomes.gains.le h)
  have hcdr := h.cdr_eq hlt' (hcs c hlt) hshared₁
  by_cases hlater : ∃ g'' ∈ gs, g''.destination = some c
  · obtain ⟨g'', hg'', hc''⟩ := hlater
    obtain ⟨hapart, hcar, hcdr'⟩ := h'.arrives g'' hg'' c hc'' hshared
    exact ⟨hapart, hcar, hcdr'.trans hcdr⟩
  · -- What the first frame has delivered has stayed.
    rcases List.mem_cons.1 hg' with rfl | hg'
    · obtain ⟨hapart, hcar, -⟩ := h.arrives c hc hshared₁
      have hkept : ¬ Written b gs c := by
        rintro (hle | hd)
        · exact Nat.not_lt.2 (Nat.le_trans hbegins.le hle) hlt
        · exact hlater hd
      have hlt₁ : c < s₁.pairs.size := Nat.lt_of_lt_of_le hlt' (h.becomes.count .pair)
      have hsame := h'.becomes.pair hlt₁ hshared₁ hkept
      refine ⟨h'.becomes.apart hlt₁ hapart hkept, ?_, ?_⟩
      · rw [Store.car_eq_of_pair_eq hsame]
        exact h'.becomes.shared hcar
      · rw [Store.cdr_eq_of_pair_eq hsame, hcdr]
    · exact absurd ⟨g', hg', hc⟩ hlater

/-- What a frame works on is within reach, or it is a list in some of the pairs `cs`, which nobody else
has. -/
inductive Occupies (w : Realm) (s : Store) (v : Value) : List Ref → Prop
  | shared (h : w.Shared v) : Occupies w s v []
  | own {cs ds : List Ref} (hlist : s.ListAt v ds) (hmem : ∀ c ∈ ds, c ∈ cs)
      (hapart : ∀ c ∈ ds, w.Apart c) : Occupies w s v cs

theorem Fresh.occupies (h : w.Fresh s v cs) : w.Occupies s v cs := by
  cases h with
  | shared hv => exact .shared hv
  | own hown => exact .own hown.list (fun _ hc => hc) hown.apart

/-- A frame `f` with the pairs `C` goes on as `g` with the pairs `cs`, which is ready again when the
values of the frames above it have arrived. Their copies are in pairs from `a` on. -/
structure Suspends (n : Nat) (C : Ref → Prop) (f : Frame) (w : Realm) (s : Store) (g : Frame)
    (gs : List Frame) (a : Nat) (cs : List Ref) : Prop where
  scope : g.scope = f.scope
  destination : g.destination = f.destination
  le : n ≤ a
  bound : a ≤ s.pairs.size
  queue : w.Queue (Improper s) s a gs
  cells : ∀ c ∈ cs, (C c ∨ n ≤ c) ∧ c < a
  occupies : w.Occupies s g.expr cs
  uncopied : cs = [] → g.expr = f.expr ∨ Improper s g.expr
  receives : ∀ h ∈ gs, ∃ c, h.destination = some c ∧ c < a ∧
    (w.shared .pair c c ∧ cs = [] ∨ w.Apart c ∧ (C c ∨ n ≤ c))
  ready : ∀ w' s', RanAll a gs w s w' s' → w'.Ready s' g cs

/-- What a step of a frame with the pairs `C` may lead to, from a store with `n` pairs. -/
def Leads (n : Nat) (C : Ref → Prop) (f : Frame) (w : Realm) (t : Frame.Transition) (s : Store) : Prop :=
  match t with
  | .value v => w.Shared v
  | .call procedure args => w.Shared procedure ∧ ∀ v ∈ args, w.Shared v
  | .replace gs => gs ≠ [] ∧ w.Queue (Improper s) s n gs ∧ ∀ g ∈ gs, g.destination = f.destination
  | .suspend g gs => ∃ a cs, Suspends n C f w s g gs a cs

variable {n : Nat} {C : Ref → Prop} {f : Frame}

/-- A frame that goes on with a copy of another expression. -/
theorem Suspends.again {g : Frame} (hw : w.Holds s) (hfresh : w.Fresh s g.expr cs)
    (hcs : ∀ c ∈ cs, n ≤ c ∧ c < s.pairs.size) (hn : n ≤ s.pairs.size)
    (huncopied : cs = [] → Improper s g.expr) (hpushed : g.pushed = false)
    (hscope : g.scope = f.scope) (hdestination : g.destination = f.destination) :
    Suspends n C f w s g [] s.pairs.size cs where
  scope := hscope
  destination := hdestination
  le := hn
  bound := Nat.le_refl _
  queue := trivial
  cells c hc := ⟨.inr (hcs c hc).1, (hcs c hc).2⟩
  occupies := hfresh.occupies
  uncopied h := .inr (huncopied h)
  receives h hh := absurd hh List.not_mem_nil
  ready w' s' hran := by
    refine (hran.becomes.fresh hw hfresh fun c hc => ?_).ready hpushed
    rintro (hle | ⟨g, hg, -⟩)
    · exact Nat.not_lt.2 hle (hcs c hc).2
    · simp at hg

theorem goOn_stays (hw : w.Holds s) (hv : w.Expr s v) (hn : n ≤ s.pairs.size) :
    Stays W w s (Frame.goOn f v) (Leads n C f) := by
  obtain ⟨cs, hkept, hfresh, himproper, hcs⟩ := hw.copySpine (W := W) hv
  have hagain : Suspends n C f w (s.copySpine v).2 (f.withExpr (s.copySpine v).1) []
      (s.copySpine v).2.pairs.size cs :=
    .again hkept.holds hfresh (fun c hc => ⟨Nat.le_trans hn (hcs c hc).1, (hcs c hc).2⟩)
      (Nat.le_trans hn (hkept.count .pair)) himproper rfl rfl rfl
  exact .of_ok (Frame.run_goOn f v s) hkept ⟨_, cs, hagain⟩

theorem await_stays (hw : w.Holds s) (hscope : w.shared .scope f.scope f.scope) (hv : w.Expr s v)
    {c : Ref} (hn : n ≤ s.pairs.size) (hc : c < s.pairs.size)
    (hcells : ∀ q ∈ cs, (C q ∨ n ≤ q) ∧ q < s.pairs.size) (hoccupies : w.Occupies s f.expr cs)
    (hreceives : w.shared .pair c c ∧ cs = [] ∨ w.Apart c ∧ (C c ∨ n ≤ c))
    (hready : ∀ w' s', w.Becomes (fun r => s.pairs.size ≤ r ∨ r = c) s w' s' → w'.Arrives s s' c →
      w'.Ready s' { f with pushed := true } cs) :
    Stays W w s (Frame.await f v c) (Leads n C f) := by
  have hkeeps := keeps_copySpine s v
  have hkept := hw.keeps (W := W) hkeeps
  obtain ⟨ds, hbegins⟩ := hw.begins hv hscope (some c) (.refl (s.copySpine v).2)
  have hoccupies' : w.Occupies (s.copySpine v).2 f.expr cs := by
    cases hoccupies with
    | shared h => exact .shared h
    | own hlist hmem hapart =>
        exact .own (hlist.congr (fun q hq => Store.cdr_eq_of_pair_eq
          (hkeeps.same .pair q (hlist.2 q hq))) (hkeeps.count .pair)) hmem hapart
  refine .of_ok (Frame.run_await f v c s) hkept ⟨s.pairs.size, cs, rfl, rfl, hn, hkeeps.count .pair,
    ⟨_, ds, hbegins, trivial⟩, hcells, hoccupies', fun _ => .inl rfl, ?_, fun w' s' hran => ?_⟩
  · intro g hg
    obtain rfl := List.mem_singleton.1 hg
    exact ⟨c, rfl, hc, hreceives⟩
  · have hwritten : ∀ r, Written s.pairs.size [Frame.fresh f.scope (some c) (s.copySpine v).1] r →
        s.pairs.size ≤ r ∨ r = c := by
      rintro r (hle | ⟨g, hg, hr⟩)
      · exact .inl hle
      · obtain rfl := List.mem_singleton.1 hg
        exact .inr (Option.some.inj hr).symm
    refine hready w' s' ((hw.keeps hkeeps).trans (hran.becomes.mono hwritten) fun _ => .inl)
      fun hshared => ?_
    obtain ⟨hapart, hcar, hcdr⟩ := hran.arrives _ (List.mem_singleton.2 rfl) c rfl hshared
    exact ⟨hapart, hcar, hcdr.trans (Store.cdr_eq_of_pair_eq (hkeeps.same .pair c hc))⟩

end Realm
end LittleScheme

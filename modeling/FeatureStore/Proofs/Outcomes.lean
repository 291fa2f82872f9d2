import Mathlib.Tactic

/-!
# Computations that succeed

What is known about the parts of a computation once the whole of it has succeeded: both halves of a
sequence (`bind_eq_ok`), every member of a traversed list (`mapM_eq_ok_iff`), and every step of a
fold (`foldlM_induction`). A computation whose parts fail in some ways only does so as well
(`FailsOnly`). Two computations that do the same with related values run `Together`: both fail, or
both succeed with related results.
-/

set_option autoImplicit false

namespace FeatureStore

variable {ε ε' α β γ : Type}

/-- A sequence succeeds exactly if its first part does and then the second. -/
theorem bind_eq_ok {x : Except ε α} {f : α → Except ε β} {b : β} :
    (x >>= f) = .ok b ↔ ∃ a, x = .ok a ∧ f a = .ok b := by
  cases x with
  | error e => simp [bind, Except.bind]
  | ok a => simp [bind, Except.bind]

theorem map_eq_ok {x : Except ε α} {f : α → β} {b : β} :
    x.map f = .ok b ↔ ∃ a, x = .ok a ∧ f a = b := by
  cases x with
  | error e => simp [Except.map]
  | ok a => simp [Except.map]

/-- A sequence fails exactly if its first part does, or the second behind it. -/
theorem bind_eq_error {x : Except ε α} {f : α → Except ε β} {e : ε} :
    (x >>= f) = .error e ↔ x = .error e ∨ ∃ a, x = .ok a ∧ f a = .error e := by
  cases x with
  | error e' => simp [bind, Except.bind]
  | ok a => simp [bind, Except.bind]

theorem map_eq_error {x : Except ε α} {f : α → β} {e : ε} (h : x.map f = .error e) :
    x = .error e := by
  cases x with
  | error e' => exact congrArg Except.error (Except.error.inj h)
  | ok a => simp [Except.map] at h

theorem bind_pure_eq_map (x : Except ε α) (f : α → β) :
    (x >>= fun a => pure (f a)) = x.map f := by
  cases x <;> rfl

theorem mapError_eq_ok {x : Except ε α} {f : ε → ε'} {a : α} :
    x.mapError f = .ok a ↔ x = .ok a := by
  cases x with
  | error e => simp [Except.mapError]
  | ok b => simp [Except.mapError]

theorem pure_eq_ok {a b : α} : (pure a : Except ε α) = .ok b ↔ a = b := by
  simp [pure, Except.pure]

theorem throw_ne_ok {e : ε} {a : α} : (throw e : Except ε α) ≠ .ok a := by
  simp [throw, throwThe, MonadExceptOf.throw]

theorem toOption_eq_some {x : Except ε α} {a : α} : x.toOption = some a ↔ x = .ok a := by
  cases x with
  | error e => simp [Except.toOption]
  | ok b => simp [Except.toOption]

/-- Of two lists related member by member, every member of the second has its partner in the
first. -/
theorem exists_left_of_forall₂ {R : α → β → Prop} {l : List α} {out : List β}
    (h : List.Forall₂ R l out) {b : β} (hb : b ∈ out) : ∃ a ∈ l, R a b := by
  induction h with
  | nil => simp at hb
  | cons hab _ ih =>
    rcases List.mem_cons.1 hb with rfl | hb
    · exact ⟨_, List.mem_cons_self, hab⟩
    · obtain ⟨a, ha, hab⟩ := ih hb
      exact ⟨a, List.mem_cons_of_mem _ ha, hab⟩

/-- Of two lists related member by member, what partners agree on holds of all members of one
exactly if it does of the other. -/
theorem forall_mem_iff_of_forall₂ {R : α → β → Prop} {P : β → Prop} {Q : α → Prop}
    (hiff : ∀ a b, R a b → (P b ↔ Q a)) {l : List α} {out : List β} (h : List.Forall₂ R l out) :
    (∀ b ∈ out, P b) ↔ ∀ a ∈ l, Q a := by
  induction h with
  | nil => simp
  | cons hab _ ih => rw [List.forall_mem_cons, List.forall_mem_cons, ih, hiff _ _ hab]

/-- A traversal succeeds exactly if it does for every member, with the results in order. -/
theorem mapM_eq_ok_iff {f : α → Except ε β} : ∀ {l : List α} {out : List β},
    l.mapM f = .ok out ↔ List.Forall₂ (fun a b => f a = .ok b) l out
  | [], out => by
    rw [List.mapM_nil, pure_eq_ok, List.forall₂_nil_left_iff]
    exact eq_comm
  | a :: l, out => by
    rw [List.mapM_cons, bind_eq_ok, List.forall₂_cons_left_iff]
    constructor
    · rintro ⟨b, hb, hrest⟩
      obtain ⟨bs, hbs, hout⟩ := bind_eq_ok.1 hrest
      exact ⟨b, bs, hb, mapM_eq_ok_iff.1 hbs, (pure_eq_ok.1 hout).symm⟩
    · rintro ⟨b, bs, hb, hbs, rfl⟩
      exact ⟨b, hb, bind_eq_ok.2 ⟨bs, mapM_eq_ok_iff.2 hbs, rfl⟩⟩

/-- A traversal whose members all succeed with known results. -/
theorem mapM_eq_ok_map {f : α → Except ε β} {g : α → β} {l : List α}
    (h : ∀ a ∈ l, f a = .ok (g a)) : l.mapM f = .ok (l.map g) := by
  refine mapM_eq_ok_iff.2 ?_
  -- both lists go through the members in step
  induction l with
  | nil => exact List.Forall₂.nil
  | cons a l ih =>
    exact List.Forall₂.cons (h a List.mem_cons_self)
      (ih fun b hb => h b (List.mem_cons_of_mem _ hb))

/-- A traversal whose members all succeed. -/
theorem exists_mapM_eq_ok {f : α → Except ε β} : ∀ {l : List α},
    (∀ a ∈ l, ∃ b, f a = .ok b) → ∃ out, l.mapM f = .ok out
  | [], _ => ⟨[], rfl⟩
  | a :: l, h => by
    obtain ⟨⟨b, hb⟩, hl⟩ := List.forall_mem_cons.1 h
    obtain ⟨out, hout⟩ := exists_mapM_eq_ok hl
    exact ⟨b :: out, mapM_eq_ok_iff.2 (.cons hb (mapM_eq_ok_iff.1 hout))⟩

/-- A traversal of the indexes of a list, whose members all succeed with known results. -/
theorem mapM_range_eq_ok_map {f : Nat → Except ε β} {g : α → β} {l : List α}
    (h : ∀ i a, l[i]? = some a → f i = .ok (g a)) :
    (List.range l.length).mapM f = .ok (l.map g) := by
  refine mapM_eq_ok_iff.2 (List.forall₂_iff_get.2 ⟨by simp, fun i hi _ => ?_⟩)
  rw [List.length_range] at hi
  rw [List.get_eq_getElem, List.get_eq_getElem, List.getElem_range, List.getElem_map]
  exact h i l[i] (List.getElem?_eq_getElem hi)

/-- Every result of a traversal is that of a member. -/
theorem exists_of_mapM_eq_ok {f : α → Except ε β} {l : List α} {out : List β}
    (h : l.mapM f = .ok out) {b : β} (hb : b ∈ out) : ∃ a ∈ l, f a = .ok b :=
  exists_left_of_forall₂ (mapM_eq_ok_iff.1 h) hb

/-- What holds before a fold that succeeds, and is kept by each of its steps, holds behind it. -/
theorem foldlM_induction {f : β → α → Except ε β} (motive : β → Prop) :
    ∀ {l : List α} {start last : β}, motive start →
      (∀ s a next, a ∈ l → motive s → f s a = .ok next → motive next) →
      l.foldlM f start = .ok last → motive last
  | [], start, last, hstart, _, h => by
    rw [List.foldlM_nil, pure_eq_ok] at h
    rwa [← h]
  | a :: l, start, last, hstart, hstep, h => by
    rw [List.foldlM_cons, bind_eq_ok] at h
    obtain ⟨middle, hmiddle, h⟩ := h
    exact foldlM_induction motive (hstep start a middle List.mem_cons_self hstart hmiddle)
      (fun s b next hb => hstep s b next (List.mem_cons_of_mem _ hb)) h

/-- In a fold that succeeds, every member is the subject of a step that does. -/
theorem exists_step_of_foldlM_eq_ok {f : β → α → Except ε β} : ∀ {l : List α} {start last : β},
    l.foldlM f start = .ok last → ∀ a ∈ l, ∃ s next, f s a = .ok next
  | [], _, _, _ => by simp
  | a :: l, start, last, h => by
    rw [List.foldlM_cons] at h
    obtain ⟨middle, hmiddle, h⟩ := bind_eq_ok.1 h
    exact List.forall_mem_cons.2 ⟨⟨start, middle, hmiddle⟩, exists_step_of_foldlM_eq_ok h⟩

/-! ## Ways to fail -/

/-- If a computation fails, it is in some way. -/
def FailsOnly (P : ε → Prop) (x : Except ε α) : Prop := ∀ e, x = .error e → P e

namespace FailsOnly

variable {P : ε → Prop}

theorem ok (a : α) : FailsOnly P (.ok a : Except ε α) := by
  intro e he
  contradiction

theorem error {e : ε} (h : P e) : FailsOnly P (.error e : Except ε α) := by
  intro e' he
  rwa [← Except.error.inj he]

theorem map {x : Except ε α} (hx : FailsOnly P x) (f : α → β) : FailsOnly P (x.map f) :=
  fun e he => hx e (map_eq_error he)

theorem bind {x : Except ε α} (hx : FailsOnly P x) {f : α → Except ε β}
    (hf : ∀ a, x = .ok a → FailsOnly P (f a)) : FailsOnly P (x >>= f) := by
  intro e he
  rcases bind_eq_error.1 he with he | ⟨a, ha, he⟩
  · exact hx e he
  · exact hf a ha e he

theorem mapM {f : α → Except ε β} {l : List α} (h : ∀ a ∈ l, FailsOnly P (f a)) :
    FailsOnly P (l.mapM f) := by
  induction l with
  | nil => exact ok []
  | cons a l ih =>
    obtain ⟨hfirst, hrest⟩ := List.forall_mem_cons.1 h
    rw [List.mapM_cons]
    refine hfirst.bind fun b _ => ?_
    exact (ih hrest).bind fun bs _ => ok _

end FailsOnly

/-! ## Two computations -/

/-- Both computations fail, or both succeed and their results are related. -/
inductive Together (R : α → β → Prop) : Except ε α → Except ε β → Prop
  | ok {a : α} {b : β} : R a b → Together R (.ok a) (.ok b)
  | error (e f : ε) : Together R (.error e) (.error f)

namespace Together

variable {δ : Type} {R : α → β → Prop} {S : γ → δ → Prop} {x : Except ε α} {y : Except ε β}

theorem bind {f : α → Except ε γ} {g : β → Except ε δ} (h : Together R x y)
    (hnext : ∀ a b, R a b → Together S (f a) (g b)) : Together S (x >>= f) (y >>= g) := by
  cases h with
  | ok hab => exact hnext _ _ hab
  | error e f => exact .error e f

theorem map {f : α → γ} {g : β → δ} (h : Together R x y) (hmap : ∀ a b, R a b → S (f a) (g b)) :
    Together S (x.map f) (y.map g) := by
  cases h with
  | ok hab => exact .ok (hmap _ _ hab)
  | error e f => exact .error e f

theorem map_left {f : α → γ} {T : γ → β → Prop} (h : Together R x y)
    (hmap : ∀ a b, R a b → T (f a) b) : Together T (x.map f) y := by
  cases h with
  | ok hab => exact .ok (hmap _ _ hab)
  | error e f => exact .error e f

/-- Behind the same computation. -/
theorem bind_same {x : Except ε α} {f : α → Except ε γ} {g : α → Except ε δ}
    (h : ∀ a, x = .ok a → Together S (f a) (g a)) : Together S (x >>= f) (x >>= g) := by
  cases x with
  | ok a => exact h a rfl
  | error e => exact .error e e

theorem mapM {P : γ → δ → Prop} {f : γ → Except ε α} {g : δ → Except ε β}
    (hstep : ∀ c d, P c d → Together R (f c) (g d)) {l : List γ} {l' : List δ}
    (h : List.Forall₂ P l l') : Together (List.Forall₂ R) (l.mapM f) (l'.mapM g) := by
  induction h with
  | nil => exact .ok .nil
  | cons hfirst _ ih =>
    rw [List.mapM_cons, List.mapM_cons]
    refine (hstep _ _ hfirst).bind fun a b hab => ?_
    exact ih.bind fun as bs hall => .ok (.cons hab hall)

end Together

end FeatureStore

/-
  Programs over a state that may stop with an error. `Hoare P x Q` is partial correctness: a run of
  `x` from a state with `P` that returns a value ends with `Q`. There is one rule for each way to
  build a program; `hoare_times` is the invariant rule of counted loops. `Maintains I x` is the case of
  an invariant, with a simp set. `Total P x Q` says that such a run returns a value, too, and
  `Mirrors P x y R` that it ends as the computation `y` without a state does. Nothing here is about a
  particular program.
-/
import PcoOs.Lib.Outcome

namespace PcoOs.Lib

/-- A computation with a state of type `σ` and errors of type `ε`. -/
abbrev Prog (σ ε α : Type) := StateT σ (Except ε) α

namespace Prog

variable {σ ε α : Type}

/-- Stop with an error. -/
def stop (e : ε) : Prog σ ε α := fun _ => .error e

/-- Stop with an error if `c` holds. -/
def refuse (c : Prop) [Decidable c] (e : ε) : Prog σ ε Unit := if c then stop e else pure ()

def gets (f : σ → α) : Prog σ ε α := fun s => .ok (f s, s)

def update (f : σ → σ) : Prog σ ε Unit := fun s => .ok ((), f s)

/-- A computation that does not look at the state. -/
def embed (x : Except ε α) : Prog σ ε α := fun s => x.map fun a => (a, s)

/-- `n` rounds of `body`, at `i, i + 1, …`. -/
def times (body : Nat → Prog σ ε Unit) : Nat → Nat → Prog σ ε Unit
  | _, 0 => pure ()
  | i, n + 1 => do
    body i
    times body (i + 1) n

end Prog

open Prog

variable {σ ε α β : Type} {s : σ}

@[simp] theorem run_pure (a : α) : (pure a : Prog σ ε α) s = .ok (a, s) := rfl

@[simp] theorem run_bind (x : Prog σ ε α) (f : α → Prog σ ε β) :
    (x >>= f) s = x s >>= fun r => f r.1 r.2 := rfl

@[simp] theorem run_stop (e : ε) : (stop e : Prog σ ε α) s = .error e := rfl

@[simp] theorem run_update (f : σ → σ) : (update f : Prog σ ε Unit) s = .ok ((), f s) := rfl

@[simp] theorem run_refuse (c : Prop) [Decidable c] (e : ε) :
    (refuse c e : Prog σ ε Unit) s = if c then .error e else .ok ((), s) := by
  unfold refuse
  split_ifs <;> rfl

/-- Runs that return. -/
theorem run_bind_ok {x : Prog σ ε α} {f : α → Prog σ ε β} {b : β} {t : σ} :
    (x >>= f) s = .ok (b, t) ↔ ∃ a u, x s = .ok (a, u) ∧ f a u = .ok (b, t) := by
  rw [run_bind, bind_eq_ok]
  simp

/-! ## Triples -/

/-- From a state with `P`, a run of `x` that returns ends with `Q`. -/
def Hoare (P : σ → Prop) (x : Prog σ ε α) (Q : α → σ → Prop) : Prop :=
  ∀ s, P s → ∀ a t, x s = .ok (a, t) → Q a t

section Rules

variable {P P' : σ → Prop} {Q Q' : α → σ → Prop} {R : β → σ → Prop}

theorem hoare_pure {a : α} (h : ∀ s, P s → Q a s) : Hoare P (pure a : Prog σ ε α) Q := by
  rintro s hs b t heq
  cases heq
  exact h s hs

theorem hoare_stop (e : ε) : Hoare P (stop e : Prog σ ε α) Q := by
  rintro s hs b t heq
  cases heq

theorem hoare_gets {f : σ → α} (h : ∀ s, P s → Q (f s) s) : Hoare P (gets f : Prog σ ε α) Q := by
  rintro s hs b t heq
  cases heq
  exact h s hs

theorem hoare_update {f : σ → σ} {Q : Unit → σ → Prop} (h : ∀ s, P s → Q () (f s)) :
    Hoare P (update f : Prog σ ε Unit) Q := by
  rintro s hs b t heq
  cases heq
  exact h s hs

theorem hoare_embed {x : Except ε α} (h : ∀ a, x = .ok a → ∀ s, P s → Q a s) :
    Hoare P (embed x : Prog σ ε α) Q := by
  rintro s hs b t heq
  unfold embed at heq
  cases hx : x with
  | error e =>
    rw [hx] at heq
    cases heq
  | ok a =>
    rw [hx] at heq
    cases heq
    exact h _ hx s hs

theorem hoare_embed_fact (x : Except ε α) :
    Hoare P (embed x : Prog σ ε α) fun a s => P s ∧ x = .ok a :=
  hoare_embed fun _ hx _ hs => ⟨hs, hx⟩

theorem hoare_bind {x : Prog σ ε α} {f : α → Prog σ ε β} (hx : Hoare P x Q)
    (hf : ∀ a, Hoare (Q a) (f a) R) : Hoare P (x >>= f) R := by
  intro s hs b t heq
  obtain ⟨a, u, ha, hb⟩ := run_bind_ok.mp heq
  exact hf a u (hx s hs a u ha) b t hb

theorem hoare_ite {c : Prop} [Decidable c] {x y : Prog σ ε α} (hx : c → Hoare P x Q)
    (hy : ¬ c → Hoare P y Q) : Hoare P (if c then x else y) Q := by
  split_ifs with hc
  · exact hx hc
  · exact hy hc

/-- The test failed when the program goes on. -/
theorem hoare_refuse {c : Prop} [Decidable c] {e : ε} :
    Hoare P (refuse c e) fun _ s => P s ∧ ¬ c :=
  hoare_ite (fun _ => hoare_stop e) fun hc => hoare_pure fun _ hs => ⟨hs, hc⟩

/-- A fact that does not depend on the state. -/
theorem hoare_fact {φ : Prop} {x : Prog σ ε α} (h : φ → Hoare P x Q) :
    Hoare (fun s => P s ∧ φ) x Q := fun s hs => h hs.2 s hs.1

theorem hoare_from {φ : Prop} {x : Prog σ ε α} (hφ : ∀ s, P s → φ) (h : φ → Hoare P x Q) :
    Hoare P x Q := fun s hs => h (hφ s hs) s hs

theorem Hoare.mono {x : Prog σ ε α} (h : Hoare P x Q) (hp : ∀ s, P' s → P s)
    (hq : ∀ a s, Q a s → Q' a s) : Hoare P' x Q' :=
  fun s hs a t heq => hq a t (h s (hp s hs) a t heq)

theorem Hoare.and {x : Prog σ ε α} (h : Hoare P x Q) (h' : Hoare P' x Q') :
    Hoare (fun s => P s ∧ P' s) x fun a s => Q a s ∧ Q' a s :=
  fun s hs a t heq => ⟨h s hs.1 a t heq, h' s hs.2 a t heq⟩

/-- The invariant rule: `I i` holds before round `i`. -/
theorem hoare_times (body : Nat → Prog σ ε Unit) (I : Nat → σ → Prop) {i n : Nat}
    (hbody : ∀ j, i ≤ j → j < i + n → Hoare (I j) (body j) fun _ => I (j + 1)) :
    Hoare (I i) (times body i n) fun _ => I (i + n) := by
  induction n generalizing i with
  | zero => exact hoare_pure fun _ hs => hs
  | succ n ih =>
    refine hoare_bind (hbody i (le_refl i) (by omega)) fun _ => ?_
    have h := ih (i := i + 1) fun j hj hjn => hbody j (by omega) (by omega)
    rwa [show i + 1 + n = i + (n + 1) by omega] at h

end Rules

/-! ## Invariants -/

/-- Every run of `x` that returns keeps `I`. -/
def Maintains (I : σ → Prop) (x : Prog σ ε α) : Prop := Hoare I x fun _ => I

section Maintains

variable {I : σ → Prop}

@[simp] theorem maintains_pure (a : α) : Maintains I (pure a : Prog σ ε α) := hoare_pure fun _ hs => hs

@[simp] theorem maintains_stop (e : ε) : Maintains I (stop e : Prog σ ε α) := hoare_stop e

@[simp] theorem maintains_gets (f : σ → α) : Maintains I (gets f : Prog σ ε α) := hoare_gets fun _ hs => hs

@[simp] theorem maintains_embed (x : Except ε α) : Maintains I (embed x : Prog σ ε α) :=
  hoare_embed fun _ _ _ hs => hs

@[simp] theorem maintains_refuse (c : Prop) [Decidable c] (e : ε) :
    Maintains I (refuse c e : Prog σ ε Unit) := hoare_refuse.mono (fun _ hs => hs) fun _ _ hs => hs.1

theorem maintains_update {f : σ → σ} (h : ∀ s, I s → I (f s)) : Maintains I (update f : Prog σ ε Unit) :=
  hoare_update h

theorem maintains_bind {x : Prog σ ε α} {f : α → Prog σ ε β} (hx : Maintains I x)
    (hf : ∀ a, Maintains I (f a)) : Maintains I (x >>= f) := hoare_bind hx hf

theorem maintains_ite {c : Prop} [Decidable c] {x y : Prog σ ε α} (hx : Maintains I x)
    (hy : Maintains I y) : Maintains I (if c then x else y) := hoare_ite (fun _ => hx) fun _ => hy

theorem maintains_times {body : Nat → Prog σ ε Unit} (h : ∀ j, Maintains I (body j)) (i n : Nat) :
    Maintains I (times body i n) := hoare_times _ (fun _ => I) fun j _ _ => h j

end Maintains

/-! ## Total correctness -/

/-- From a state with `P`, `x` returns a value and ends with `Q`. -/
def Total (P : σ → Prop) (x : Prog σ ε α) (Q : α → σ → Prop) : Prop :=
  ∀ s, P s → ∃ a t, x s = .ok (a, t) ∧ Q a t

section Total

variable {P P' : σ → Prop} {Q Q' : α → σ → Prop} {R : β → σ → Prop}

theorem total_pure {a : α} (h : ∀ s, P s → Q a s) : Total P (pure a : Prog σ ε α) Q :=
  fun s hs => ⟨a, s, rfl, h s hs⟩

theorem total_gets {f : σ → α} (h : ∀ s, P s → Q (f s) s) : Total P (gets f : Prog σ ε α) Q :=
  fun s hs => ⟨f s, s, rfl, h s hs⟩

theorem total_update {f : σ → σ} {Q : Unit → σ → Prop} (h : ∀ s, P s → Q () (f s)) :
    Total P (update f : Prog σ ε Unit) Q := fun s hs => ⟨(), f s, rfl, h s hs⟩

theorem total_bind {x : Prog σ ε α} {f : α → Prog σ ε β} (hx : Total P x Q)
    (hf : ∀ a, Total (Q a) (f a) R) : Total P (x >>= f) R := by
  intro s hs
  obtain ⟨a, u, ha, hq⟩ := hx s hs
  obtain ⟨b, t, hb, hr⟩ := hf a u hq
  exact ⟨b, t, run_bind_ok.mpr ⟨a, u, ha, hb⟩, hr⟩

theorem total_ite {c : Prop} [Decidable c] {x y : Prog σ ε α} (hx : c → Total P x Q)
    (hy : ¬ c → Total P y Q) : Total P (if c then x else y) Q := by
  split_ifs with hc
  · exact hx hc
  · exact hy hc

/-- The test fails. -/
theorem total_refuse {c : Prop} [Decidable c] {e : ε} (hc : ¬ c) :
    Total P (refuse c e) fun _ => P :=
  total_ite (fun h => absurd h hc) fun _ => total_pure fun _ hs => hs

theorem total_fact {φ : Prop} {x : Prog σ ε α} (h : φ → Total P x Q) :
    Total (fun s => P s ∧ φ) x Q := fun s hs => h hs.2 s hs.1

theorem Total.mono {x : Prog σ ε α} (h : Total P x Q) (hp : ∀ s, P' s → P s)
    (hq : ∀ a s, Q a s → Q' a s) : Total P' x Q' := by
  intro s hs
  obtain ⟨a, t, heq, h⟩ := h s (hp s hs)
  exact ⟨a, t, heq, hq a t h⟩

theorem Total.and_hoare {x : Prog σ ε α} (h : Total P x Q) (h' : Hoare P' x Q') :
    Total (fun s => P s ∧ P' s) x fun a s => Q a s ∧ Q' a s := by
  intro s hs
  obtain ⟨a, t, heq, hq⟩ := h s hs.1
  exact ⟨a, t, heq, hq, h' s hs.2 a t heq⟩

/-- The invariant rule. -/
theorem total_times (body : Nat → Prog σ ε Unit) (I : Nat → σ → Prop) {i n : Nat}
    (hbody : ∀ j, i ≤ j → j < i + n → Total (I j) (body j) fun _ => I (j + 1)) :
    Total (I i) (times body i n) fun _ => I (i + n) := by
  induction n generalizing i with
  | zero => exact total_pure fun _ hs => hs
  | succ n ih =>
    refine total_bind (hbody i (le_refl i) (by omega)) fun _ => ?_
    have h := ih (i := i + 1) fun j hj hjn => hbody j (by omega) (by omega)
    rwa [show i + 1 + n = i + (n + 1) by omega] at h

end Total

/-! ## Programs and computations without a state -/

/-- From a state with `P`, `x` stops with the error of `y`, or both return and `R` holds of the
    values and the last state. -/
def Mirrors {γ : Type} (P : σ → Prop) (x : Prog σ ε α) (y : Except ε γ) (R : α → γ → σ → Prop) :
    Prop :=
  ∀ s, P s → Ends y (fun c => ∃ a t, x s = .ok (a, t) ∧ R a c t) fun e => x s = .error e

section Mirrors

variable {γ δ : Type} {P P' : σ → Prop} {Q : α → γ → σ → Prop} {R : β → δ → σ → Prop}

theorem mirrors_pure {a : α} {c : γ} (h : ∀ s, P s → Q a c s) :
    Mirrors P (pure a : Prog σ ε α) (.ok c) Q := fun s hs => ⟨a, s, rfl, h s hs⟩

theorem mirrors_bind {x : Prog σ ε α} {y : Except ε γ} {f : α → Prog σ ε β} {g : γ → Except ε δ}
    (hx : Mirrors P x y Q) (hf : ∀ a c, Mirrors (Q a c) (f a) (g c) R) :
    Mirrors P (x >>= f) (y >>= g) R := by
  intro s hs
  have hend := hx s hs
  cases y with
  | error e =>
    rw [ends_error] at hend
    rw [error_bind, ends_error, run_bind, hend, error_bind]
  | ok c =>
    obtain ⟨a, t, ha, hq⟩ := hend
    rw [ok_bind, run_bind, ha, ok_bind]
    exact hf a c t hq

/-- A step that `y` does not have. -/
theorem mirrors_left {x : Prog σ ε α} {f : α → Prog σ ε β} {y : Except ε δ} {T : α → σ → Prop}
    (hx : Total P x T) (hf : ∀ a, Mirrors (T a) (f a) y R) : Mirrors P (x >>= f) y R := by
  intro s hs
  obtain ⟨a, t, ha, ht⟩ := hx s hs
  rw [run_bind, ha, ok_bind]
  exact hf a t ht

/-- `y` is done. -/
theorem mirrors_right {x : Prog σ ε α} {y : Except ε δ} {f : α → Prog σ ε β} {Q : α → δ → σ → Prop}
    (hx : Mirrors P x y Q) (hf : ∀ a d, Total (Q a d) (f a) fun b s => R b d s) :
    Mirrors P (x >>= f) y R := fun s hs => (hx s hs).mono
  (fun d hd => by
    obtain ⟨a, t, ha, hq⟩ := hd
    obtain ⟨b, u, hb, hr⟩ := hf a d t hq
    exact ⟨b, u, run_bind_ok.mpr ⟨a, t, ha, hb⟩, hr⟩)
  fun e he => by rw [run_bind, he, error_bind]

theorem mirrors_ite {c d : Prop} [Decidable c] [Decidable d] {x x' : Prog σ ε α}
    {y y' : Except ε γ} (hcd : c ↔ d) (hx : c → Mirrors P x y Q) (hy : ¬ c → Mirrors P x' y' Q) :
    Mirrors P (if c then x else x') (if d then y else y') Q := by
  by_cases hc : c
  · rw [if_pos hc, if_pos (hcd.mp hc)]
    exact hx hc
  · rw [if_neg hc, if_neg fun hd => hc (hcd.mpr hd)]
    exact hy hc

/-- The same test stops both. -/
theorem mirrors_refuse {c : Prop} [Decidable c] {e : ε} {f : Unit → Prog σ ε β} {y : Except ε δ}
    (h : ¬ c → Mirrors P (f ()) y R) :
    Mirrors P (refuse c e >>= f) (if c then .error e else y) R := by
  intro s hs
  rw [run_bind, run_refuse]
  by_cases hc : c
  · rw [if_pos hc, if_pos hc]
    exact rfl
  · rw [if_neg hc, if_neg hc]
    exact h hc s hs

theorem mirrors_fact {φ : Prop} {x : Prog σ ε α} {y : Except ε γ} (h : φ → Mirrors P x y Q) :
    Mirrors (fun s => P s ∧ φ) x y Q := fun s hs => h hs.2 s hs.1

theorem mirrors_from {φ : Prop} {x : Prog σ ε α} {y : Except ε γ} (hφ : ∀ s, P s → φ)
    (h : φ → Mirrors P x y Q) : Mirrors P x y Q := fun s hs => h (hφ s hs) s hs

theorem Mirrors.mono {Q' : α → γ → σ → Prop} {x : Prog σ ε α} {y : Except ε γ}
    (h : Mirrors P x y Q) (hp : ∀ s, P' s → P s) (hq : ∀ a c s, Q a c s → Q' a c s) :
    Mirrors P' x y Q' := fun s hs => (h s (hp s hs)).imp fun c hc => by
  obtain ⟨a, t, ha, ht⟩ := hc
  exact ⟨a, t, ha, hq a c t ht⟩

theorem Mirrors.and_hoare {x : Prog σ ε α} {y : Except ε γ} {T : α → σ → Prop}
    (h : Mirrors P x y Q) (h' : Hoare P' x T) :
    Mirrors (fun s => P s ∧ P' s) x y fun a c s => Q a c s ∧ T a s :=
  fun s hs => (h s hs.1).imp fun c hc => by
    obtain ⟨a, t, ha, hq⟩ := hc
    exact ⟨a, t, ha, hq, h' s hs.2 a t ha⟩

/-- Two loops in step. -/
theorem mirrors_times (body : Nat → Prog σ ε Unit) (round : Nat → γ → Except ε γ)
    (I : Nat → γ → σ → Prop) {i n : Nat} {c : γ}
    (hbody : ∀ j c, i ≤ j → j < i + n →
      Mirrors (I j c) (body j) (round j c) fun _ d => I (j + 1) d) :
    Mirrors (I i c) (times body i n) (loop round i n c) fun _ d => I (i + n) d := by
  induction n generalizing i c with
  | zero => exact mirrors_pure fun _ hs => hs
  | succ n ih =>
    refine mirrors_bind (hbody i c (le_refl i) (by omega)) fun _ d => ?_
    have h := ih (i := i + 1) (c := d) fun j d hj hjn => hbody j d (by omega) (by omega)
    rwa [show i + 1 + n = i + (n + 1) by omega] at h

end Mirrors

end PcoOs.Lib

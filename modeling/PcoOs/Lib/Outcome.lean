/-
  Computations that may panic. `Ends x Q E` says how `x : Except ε α` ends: in a value with
  `Q`, or in an error with `E`. `ends_bind` is the sequencing rule, `loop` is a counted loop
  and `ends_loop` its invariant rule. `Avoids e x` says that `x` does not end in the error `e`.
  `Decides x P` is a total decision of `P`, built up by early
  returns. Nothing here is about a particular program.
-/
import Mathlib

namespace PcoOs.Lib

variable {ε α β σ : Type}

/-- `x` ends in a value with `Q` or in an error with `E`. -/
def Ends (x : Except ε α) (Q : α → Prop) (E : ε → Prop) : Prop :=
  match x with
  | .ok a => Q a
  | .error e => E e

@[simp] theorem ends_ok {a : α} {Q : α → Prop} {E : ε → Prop} :
    Ends (.ok a) Q E ↔ Q a := Iff.rfl

@[simp] theorem ends_error {e : ε} {Q : α → Prop} {E : ε → Prop} :
    Ends (.error e : Except ε α) Q E ↔ E e := Iff.rfl

@[simp] theorem ok_bind (a : α) (f : α → Except ε β) : (Except.ok a >>= f) = f a := rfl

@[simp] theorem error_bind (e : ε) (f : α → Except ε β) :
    ((Except.error e : Except ε α) >>= f) = .error e := rfl

/-- A sequence ends in a value exactly when both halves do. -/
theorem bind_eq_ok {x : Except ε α} {f : α → Except ε β} {b : β} :
    (x >>= f) = .ok b ↔ ∃ a, x = .ok a ∧ f a = .ok b := by
  cases x with
  | error e => simp
  | ok a => simp

/-- A sequence ends in an error exactly when one of its halves does. -/
theorem bind_eq_error {x : Except ε α} {f : α → Except ε β} {e : ε} :
    (x >>= f) = .error e ↔ x = .error e ∨ ∃ a, x = .ok a ∧ f a = .error e := by
  cases x with
  | error e' => simp
  | ok a => simp

theorem exists_ok_of_isOk {x : Except ε α} (h : x.isOk = true) : ∃ a, x = .ok a := by
  cases x with
  | error e => cases h
  | ok a => exact ⟨a, rfl⟩

theorem ends_bind {x : Except ε α} {f : α → Except ε β} {P : α → Prop} {Q : β → Prop}
    {E : ε → Prop} (hx : Ends x P E) (hf : ∀ a, P a → Ends (f a) Q E) :
    Ends (x >>= f) Q E := by
  cases x with
  | error e => exact hx
  | ok a => exact hf a hx

theorem Ends.mono {x : Except ε α} {P Q : α → Prop} {E F : ε → Prop} (h : Ends x P E)
    (hq : ∀ a, P a → Q a) (he : ∀ e, E e → F e) : Ends x Q F := by
  cases x with
  | error e => exact he e h
  | ok a => exact hq a h

theorem Ends.imp {x : Except ε α} {P Q : α → Prop} {E : ε → Prop} (h : Ends x P E)
    (hq : ∀ a, P a → Q a) : Ends x Q E := h.mono hq fun _ h => h

/-- Two accounts of one computation. -/
theorem Ends.and {x : Except ε α} {P Q : α → Prop} {E F : ε → Prop} (h : Ends x P E)
    (h' : Ends x Q F) : Ends x (fun a => P a ∧ Q a) fun e => E e ∧ F e := by
  cases x with
  | error e => exact ⟨h, h'⟩
  | ok a => exact ⟨h, h'⟩

theorem Ends.of_ok {x : Except ε α} {Q : α → Prop} {E : ε → Prop} (h : Ends x Q E) {a : α}
    (hx : x = .ok a) : Q a := by
  subst hx; exact h

theorem Ends.of_error {x : Except ε α} {Q : α → Prop} {E : ε → Prop} (h : Ends x Q E) {e : ε}
    (hx : x = .error e) : E e := by
  subst hx; exact h

/-- Partial correctness: nothing is said about the errors. -/
theorem ends_iff_ok {x : Except ε α} {Q : α → Prop} :
    Ends x Q (fun _ => True) ↔ ∀ a, x = .ok a → Q a := by
  cases x with
  | error e => simp
  | ok a => simp

/-- With an unreachable error the value exists. -/
theorem Ends.exists_ok {x : Except ε α} {Q : α → Prop} {E : ε → Prop} (h : Ends x Q E)
    (he : ∀ e, ¬ E e) : ∃ a, x = .ok a ∧ Q a := by
  cases x with
  | error e => exact absurd h (he e)
  | ok a => exact ⟨a, rfl, h⟩

/-! ## Errors that do not occur -/

/-- `x` does not end in the error `e`. -/
def Avoids (e : ε) (x : Except ε α) : Prop := x ≠ .error e

@[simp] theorem avoids_ok (e : ε) (a : α) : Avoids e (.ok a) := fun h => by cases h

@[simp] theorem avoids_error {e e' : ε} : Avoids e (.error e' : Except ε α) ↔ e' ≠ e := by
  unfold Avoids
  simp

@[simp] theorem avoids_bind {e : ε} {x : Except ε α} {f : α → Except ε β} :
    Avoids e (x >>= f) ↔ Avoids e x ∧ ∀ a, x = .ok a → Avoids e (f a) := by
  unfold Avoids
  cases x with
  | error e' => simp
  | ok a => simp

@[simp] theorem avoids_ite {e : ε} {c : Prop} [Decidable c] {x y : Except ε α} :
    Avoids e (if c then x else y) ↔ (c → Avoids e x) ∧ (¬ c → Avoids e y) := by
  split_ifs with hc <;> simp [hc]

theorem Ends.avoids {x : Except ε α} {Q : α → Prop} {E : ε → Prop} (h : Ends x Q E) {e : ε}
    (he : ¬ E e) : Avoids e x := fun hx => he (h.of_error hx)

/-! ## Decisions -/

/-- `x` returns, with `true` exactly when `P` holds. -/
def Decides (x : Except ε Bool) (P : Prop) : Prop := ∃ b, x = .ok b ∧ (b = true ↔ P)

theorem decides_decide (P : Prop) [Decidable P] : Decides (.ok (decide P) : Except ε Bool) P :=
  ⟨_, rfl, decide_eq_true_iff⟩

theorem Decides.congr {x : Except ε Bool} {P Q : Prop} (h : Decides x P) (hpq : P ↔ Q) :
    Decides x Q := by
  obtain ⟨b, hx, hb⟩ := h
  exact ⟨b, hx, hb.trans hpq⟩

/-- `if c: return False`. -/
theorem decides_unless {c P : Prop} [Decidable c] {x : Except ε Bool}
    (h : ¬ c → Decides x P) : Decides (if c then .ok false else x) (¬ c ∧ P) := by
  split_ifs with hc
  · exact ⟨false, rfl, by simp [hc]⟩
  · exact (h hc).congr (by simp [hc])

/-- `if not x: return False`. -/
theorem decides_bind {x : Except ε Bool} {f : Bool → Except ε Bool} {P Q : Prop}
    (hx : Decides x P) (hf : f false = .ok false) (ht : P → Decides (f true) Q) :
    Decides (x >>= f) (P ∧ Q) := by
  obtain ⟨b, rfl, hb⟩ := hx
  cases b with
  | false => exact ⟨false, hf, by simpa using fun hp => absurd (hb.mpr hp) (by simp)⟩
  | true => exact (ht (hb.mp rfl)).congr (by simp [hb.mp rfl])

/-! ## Counted loops -/

/-- `n` iterations of `body`, at the indices `i, i + 1, …`: the source's
    `while i < i + n: body; i += 1`. -/
def loop (body : Nat → σ → Except ε σ) : Nat → Nat → σ → Except ε σ
  | _, 0, s => .ok s
  | i, n + 1, s => body i s >>= loop body (i + 1) n

@[simp] theorem loop_zero (body : Nat → σ → Except ε σ) (i : Nat) (s : σ) :
    loop body i 0 s = .ok s := rfl

theorem loop_succ (body : Nat → σ → Except ε σ) (i n : Nat) (s : σ) :
    loop body i (n + 1) s = body i s >>= loop body (i + 1) n := rfl

/-- The invariant rule: `I i` holds before iteration `i`. -/
theorem ends_loop {f : Nat → σ → Except ε σ} {E : ε → Prop} (I : Nat → σ → Prop)
    {i n : Nat} {s : σ} (h0 : I i s)
    (hstep : ∀ j s, i ≤ j → j < i + n → I j s → Ends (f j s) (I (j + 1)) E) :
    Ends (loop f i n s) (I (i + n)) E := by
  induction n generalizing i s with
  | zero => simpa using h0
  | succ n ih =>
    rw [loop_succ]
    refine ends_bind (hstep i s (le_refl i) (by omega) h0) fun t ht => ?_
    have h := ih ht fun j s hj hjn => hstep j s (by omega) (by omega)
    rwa [show i + 1 + n = i + (n + 1) by omega] at h

theorem avoids_loop {e : ε} {f : Nat → σ → Except ε σ} (h : ∀ i s, Avoids e (f i s)) (i n : Nat)
    (s : σ) : Avoids e (loop f i n s) := by
  induction n generalizing i s with
  | zero => simp
  | succ n ih => simp [loop_succ, h, ih]

/-- A loop whose iterations cannot fail is the iterate of its pure f. -/
theorem loop_eq_ok {f : Nat → σ → Except ε σ} (I : Nat → σ → Prop) {i n : Nat} {s : σ}
    (h0 : I i s)
    (hstep : ∀ j s, i ≤ j → j < i + n → I j s → ∃ t, f j s = .ok t ∧ I (j + 1) t) :
    ∃ t, loop f i n s = .ok t ∧ I (i + n) t := by
  refine (ends_loop (E := fun _ => False) I h0 fun j s hj hjn hI => ?_).exists_ok fun _ h => h
  obtain ⟨t, ht, hI'⟩ := hstep j s hj hjn hI
  rw [ht]
  exact hI'

end PcoOs.Lib

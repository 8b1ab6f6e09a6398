/-
  Simulation between two machines that answer calls. A call of the first costs room; it does what
  the second does and answers the same, unless the room is used up (`Simulates`). The same then
  holds of every run of calls (`Simulates.run`), and the cost of a run is read off the second
  machine.
-/
import PcoOs.Lib.Outcome

namespace PcoOs.Lib

variable {σ α κ ρ ε : Type}

/-- The calls one after the other, with the answers. -/
def answers (step : σ → κ → Except ε (ρ × σ)) : σ → List κ → Except ε (List ρ × σ)
  | s, [] => .ok ([], s)
  | s, c :: cs => do
    let r ← step s c
    let rs ← answers step r.2 cs
    .ok (r.1 :: rs.1, rs.2)

/-- What a run costs, up to the call it fails at. -/
def expense (spec : α → κ → Except ε (ρ × α)) (cost : α → κ → Nat) : α → List κ → Nat
  | _, [] => 0
  | a, c :: cs => cost a c + match spec a c with
    | .ok r => expense spec cost r.2 cs
    | .error _ => 0

/-- `step` on states related to those of `spec`, within its `room`; `lost` is the failure for lack
    of it. -/
structure Simulates (step : σ → κ → Except ε (ρ × σ)) (spec : α → κ → Except ε (ρ × α))
    (rel : σ → α → Prop) (cost : α → κ → Nat) (room : σ → Nat) (lost : ε) : Prop where
  call : ∀ (s : σ) (a : α) (c : κ), rel s a → Ends (step s c)
    (fun r => room s = room r.2 + cost a c ∧ ∃ a', spec a c = .ok (r.1, a') ∧ rel r.2 a')
    (fun e => if room s < cost a c then e = lost else spec a c = .error e)

section Run

variable {step : σ → κ → Except ε (ρ × σ)} {spec : α → κ → Except ε (ρ × α)} {rel : σ → α → Prop}
  {cost : α → κ → Nat} {room : σ → Nat} {lost : ε}

theorem expense_ok {a a' : α} {c : κ} {r : ρ} (h : spec a c = .ok (r, a')) (cs : List κ) :
    expense spec cost a (c :: cs) = cost a c + expense spec cost a' cs := by
  rw [expense, h]

theorem expense_error {a : α} {c : κ} {e : ε} (h : spec a c = .error e) (cs : List κ) :
    expense spec cost a (c :: cs) = cost a c := by
  rw [expense, h]
  rfl

theorem le_expense (a : α) (c : κ) (cs : List κ) : cost a c ≤ expense spec cost a (c :: cs) :=
  Nat.le_add_right _ _

/-- Runs answer alike. -/
theorem Simulates.run (h : Simulates step spec rel cost room lost) (cs : List κ) {s : σ} {a : α}
    (hs : rel s a) : Ends (answers step s cs)
      (fun r => room s = room r.2 + expense spec cost a cs ∧
        ∃ a', answers spec a cs = .ok (r.1, a') ∧ rel r.2 a')
      (fun e => if room s < expense spec cost a cs then e = lost
        else answers spec a cs = .error e) := by
  induction cs generalizing s a with
  | nil => exact ⟨rfl, a, rfl, hs⟩
  | cons c cs ih =>
    rw [answers]
    have hle : cost a c ≤ expense spec cost a (c :: cs) := le_expense a c cs
    refine ends_bind ((h.call s a c hs).mono (fun _ hr => hr) fun e he => ?_) fun r hr => ?_
    · split_ifs at he with hroom
      · rw [if_pos (by omega)]
        exact he
      · rw [expense_error he, if_neg hroom, answers, he]
        rfl
    · obtain ⟨hroom, a', hspec, hrel⟩ := hr
      obtain ⟨r, s'⟩ := r
      dsimp only at hroom hspec hrel ⊢
      refine ends_bind ((ih hrel).mono (fun _ hrs => hrs) fun e he => ?_) fun rs hrs => ?_
      · rw [expense_ok hspec, answers, hspec]
        split_ifs at he with hlow
        · rw [if_pos (by omega)]
          exact he
        · rw [if_neg (by omega)]
          show (answers spec a' cs >>= fun rs => _) = _
          rw [he]
          rfl
      · obtain ⟨hlow, a'', hrun, hrel'⟩ := hrs
        refine ⟨?_, a'', ?_, hrel'⟩
        · rw [expense_ok hspec]
          dsimp only
          omega
        · rw [answers, hspec]
          show (answers spec a' cs >>= fun rs => _) = _
          rw [hrun]
          rfl

end Run

end PcoOs.Lib

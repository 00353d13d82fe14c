import MutationGuard.Proofs.Unmetered

/-!
What an action spends. `Spends T r x cost` says that from `r` the action pays `cost`, the growth of
memory, and what the frames it enters have used, no more and no less; if it fails, what was used below
was still there to be spent. How the use of the frames below shows in the source is left to a `Tally`:
one of them may count, and another one add up. `Spends.bind` puts actions one after the other, and free
actions are passed over (`Free.then`).
-/

namespace MutationGuard

variable {σ α β : Type}

/-- A way to tell from the source what the frames below have used, and how many steps they had. -/
structure Tally (σ : Type) where
  prices : Pricing
  /-- Between an earlier and a later source, frames have used so much gas. -/
  adds : σ → σ → Nat → Prop
  /-- The gas without which no frame below takes all of its steps. -/
  fuel : Nat
  zero (b : σ) : adds b b 0
  add {b b' b'' : σ} {m n : Nat} : adds b b' m → adds b' b'' n → adds b b'' (m + n)

namespace Tally

variable (T : Tally σ)

/-- The cost of memory of so many words. -/
def memoryCost (words : Nat) : Nat := T.prices.schedule.memoryCost words

/-- From `r` to `s` the cost is paid, the growth of memory, and what frames below have used. -/
structure Spent (r s : Activation σ) (cost : Nat) : Prop where
  limit : s.gas.limit = r.gas.limit
  sound : s.gas.Sound
  words : r.memory.words ≤ s.memory.words
  total : ∃ below, T.adds r.txn.base s.txn.base below ∧
    r.gas.spent + T.memoryCost s.memory.words + below + cost =
      s.gas.spent + T.memoryCost r.memory.words

/-- From `r` on, what frames below have used until the failure could be paid; and if steps ran out,
there was the gas to take them. -/
structure Stopped (r s : Activation σ) (e : OpError) : Prop where
  below : ∃ below, T.adds r.txn.base s.txn.base below ∧ below ≤ r.gas.remaining
  steps : e = .abort .outOfSteps → T.fuel ≤ r.gas.remaining

/-- A run that had so much gas ends with no more, and the rest is what it has used; if it is aborted,
it has used no more. If steps ran out, there was the gas to take them. -/
def Reports (b : σ) (gas : Nat) : EStateM.Result Abort (Txn σ) Outcome → Prop
  | .ok outcome after => outcome.gasLeft ≤ gas ∧ T.adds b after.base (gas - outcome.gasLeft)
  | .error cause after =>
    (∃ below, T.adds b after.base below ∧ below ≤ gas) ∧ (cause = .outOfSteps → T.fuel ≤ gas)

/-- Whatever frame is run with so much gas, its end reports what it has used. -/
def Honest (run : Runner σ) (gas : Nat) : Prop :=
  ∀ child code t, T.Reports t.base gas (run child code gas t)

variable {T} {r s u : Activation σ} {c d : Nat} {e : OpError}

theorem memoryCost_mono {m n : Nat} (h : m ≤ n) : T.memoryCost m ≤ T.memoryCost n :=
  T.prices.schedule.memoryCost_mono h

/-- What was used below was paid, besides the cost. -/
theorem Spent.below (h : T.Spent r s c) :
    ∃ below, T.adds r.txn.base s.txn.base below ∧
      s.gas.remaining + below + c ≤ r.gas.remaining := by
  obtain ⟨below, hadds, htotal⟩ := h.total
  have hgrown := T.memoryCost_mono h.words
  have hlimit := h.limit
  have hsound : s.gas.spent ≤ s.gas.limit := h.sound
  refine ⟨below, hadds, ?_⟩
  unfold GasMeter.remaining
  omega

theorem Spent.trans (h : T.Spent r s c) (h' : T.Spent s u d) : T.Spent r u (c + d) := by
  obtain ⟨below, hadds, htotal⟩ := h.total
  obtain ⟨below', hadds', htotal'⟩ := h'.total
  refine ⟨h'.limit.trans h.limit, h'.sound, Nat.le_trans h.words h'.words, below + below', ?_, ?_⟩
  · exact T.add hadds hadds'
  · omega

theorem Spent.stopped (h : T.Spent r s c) (h' : T.Stopped s u e) : T.Stopped r u e := by
  obtain ⟨below, hadds, hle⟩ := h.below
  obtain ⟨below', hadds', hle'⟩ := h'.below
  refine ⟨⟨below + below', T.add hadds hadds', by omega⟩, fun he => ?_⟩
  have hfuel := h'.steps he
  omega

theorem Spent.of_sameMeter (h : Exec.SameMeter r s) (hr : r.gas.Sound) : T.Spent r s 0 where
  limit := by rw [h.gas]
  sound := by rw [h.gas]; exact hr
  words := Nat.le_of_eq h.words.symm
  total := ⟨0, by rw [h.base]; exact T.zero _, by rw [h.gas, h.words]; rfl⟩

theorem Stopped.of_sameMeter (h : Exec.SameMeter r s) (he : e ≠ .abort .outOfSteps) :
    T.Stopped r s e where
  below := ⟨0, by rw [h.base]; exact T.zero _, Nat.zero_le _⟩
  steps heq := absurd heq he

end Tally

namespace Exec

/-- From `r`, the action pays the cost, the growth of memory, and what the frames it enters use. -/
def Spends (T : Tally σ) (r : Activation σ) (x : Exec σ α) (cost : Nat) : Prop :=
  r.gas.Sound → match x r with
    | .ok _ s => T.Spent r s cost
    | .error e s => T.Stopped r s e

variable {T : Tally σ} {r : Activation σ} {c d : Nat}

section Rules

theorem Spends.of_ok {x : Exec σ α} (hx : Spends T r x c) (hr : r.gas.Sound) {a : α}
    {s : Activation σ} (h : x r = .ok a s) : T.Spent r s c := by
  have hspends := hx hr
  rw [h] at hspends
  exact hspends

theorem Spends.of_error {x : Exec σ α} (hx : Spends T r x c) (hr : r.gas.Sound) {e : OpError}
    {s : Activation σ} (h : x r = .error e s) : T.Stopped r s e := by
  have hspends := hx hr
  rw [h] at hspends
  exact hspends

theorem Spends.bind {x : Exec σ α} {g : α → Exec σ β} (hx : Spends T r x c)
    (hg : ∀ a s, x r = .ok a s → Spends T s (g a) d) : Spends T r (x >>= g) (c + d) := by
  intro hr
  cases h : x r with
  | error e s =>
    rw [bind_of_error h]
    exact hx.of_error hr h
  | ok a s =>
    have hs := hx.of_ok hr h
    rw [bind_of_ok h]
    cases hgs : g a s with
    | ok b u => exact hs.trans ((hg a s h).of_ok hs.sound hgs)
    | error e u => exact hs.stopped ((hg a s h).of_error hs.sound hgs)

theorem Free.spends {x : Exec σ α} (hx : Free x) : Spends T r x 0 := by
  intro hr
  cases h : x r with
  | ok a s => exact .of_sameMeter (hx.of_ok h) hr
  | error e s =>
    obtain ⟨hs, he⟩ := hx.of_error h
    exact .of_sameMeter hs he

/-- A free action in front changes neither the cost nor the meter. -/
theorem Free.then {x : Exec σ α} {g : α → Exec σ β} (hx : Free x)
    (hg : ∀ a s, x r = .ok a s → SameMeter r s → Spends T s (g a) c) :
    Spends T r (x >>= g) c := by
  have hbind : Spends T r (x >>= g) (0 + c) :=
    hx.spends.bind fun a s h => hg a s h (hx.of_ok h)
  rw [Nat.zero_add] at hbind
  exact hbind

/-- A free action afterwards. -/
theorem Spends.thenFree {x : Exec σ α} {g : α → Exec σ β} (hx : Spends T r x c)
    (hg : ∀ a, Free (g a)) : Spends T r (x >>= g) c :=
  hx.bind fun a _ _ => (hg a).spends

theorem Spends.map {x : Exec σ α} (hx : Spends T r x c) (g : α → β) : Spends T r (g <$> x) c := by
  rw [map_eq_pure_bind]
  exact hx.thenFree fun a => free_pure (g a)

theorem Spends.andNext {x : Exec σ Unit} (hx : Spends T r x c) : Spends T r (andNext x) c :=
  hx.thenFree fun _ => free_get.bind fun _ => free_pure _

end Rules

theorem spends_charge (gas : Nat) : Spends T r (charge gas) gas := by
  intro hr
  rw [charge_eq]
  cases hm : r.gas.charge gas with
  | error e => exact .of_sameMeter (.refl r) nofun
  | ok meter =>
    have hsound := GasMeter.sound_of_charge hm
    obtain ⟨-, rfl⟩ := GasMeter.charge_eq_ok_iff.mp hm
    exact ⟨rfl, hsound, Nat.le_refl _, 0, T.zero _, by dsimp only; omega⟩

end Exec
end MutationGuard

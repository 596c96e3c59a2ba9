import Parley.Proofs.Jitter

/-!
The delays of a call, attempt after attempt.

* `Backoff.delays`: the delays after several attempts, each with a fraction of its own;
* `backoffDelay_le`, `Backoff.delays_pairwise`: in doubles they do not decrease, as far as none of
  them is negative;
* `Backoff.delayFor_nonneg`: none is in the first 971 attempts, if the cap is small enough;
* `delays_grow`: nor do they in exact arithmetic, where none can be negative.
-/
namespace Parley

open Double RoundedDelay

/-- Among delays in doubles that are not negative, those after later attempts are not shorter. -/
theorem backoffDelay_le {n m : Int} {base cap : Millis} {f g : Double} (hb : 0 ≤ base)
    (hc : 0 ≤ cap) (base_lt : base < 2 ^ 63) (cap_lt : cap < 2 ^ 63) (h : max n 1 < max m 1)
    (hf : 0 ≤ backoffDelay n base cap f) (hg : 0 ≤ backoffDelay m base cap g) :
    backoffDelay n base cap f ≤ backoffDelay m base cap g := by
  have rounded : 0 ≤ nearest base := (exact_nearest (by exact_mod_cast hb)).nonneg
  have negative : ¬ 0 ≤ leastInt64 := by decide
  rcases delay_cases hb hc base_lt cap_lt n f with
    ⟨-, -, -, delay⟩ | ⟨-, spread, c, cut, nonneg, -, delay⟩
  · exact absurd (delay ▸ hf) negative
  rcases delay_cases hb hc base_lt cap_lt m g with
    ⟨-, -, -, delay'⟩ | ⟨-, spread', c', cut', nonneg', -, delay'⟩
  · exact absurd (delay' ▸ hg) negative
  have small : c < 2 ^ 63 := by
    by_contra large
    exact negative (by rwa [delay, if_neg large] at hf)
  have small' : c' < 2 ^ 63 := by
    by_contra large
    exact negative (by rwa [delay', if_neg large] at hg)
  rw [delay, delay', if_pos small, if_pos small', cut, cut']
  exact Int.floor_le_floor (spread.cutOff_mono spread' (two_mul_doubled_le rounded h))

/-- The fraction that is drawn is a number. -/
theorem unitFraction_finite (word : UInt64) : ∃ x, unitFraction word = .finite x := by
  have least : (0 : Rat) ≤ ((word.toNat : Int) : Rat) := by positivity
  have most : ((word.toNat : Int) : Rat) ≤ 2 ^ 64 := by exact_mod_cast word.toNat_lt.le
  have drawn : ofInt word.toNat = .finite (nearest ((word.toNat : Int) : Rat)) :=
    ofRat_of_le least (exact_two_pow 64) most (two_pow_lt (by decide))
  rw [unitFraction, drawn]
  dsimp only
  split
  · exact ⟨_, rfl⟩
  · exact ⟨_, rfl⟩

/-- In the first so many attempts no delay goes beyond the doubles, whatever is drawn, and with a
cap that is a double itself none goes beyond 64 bits. So none is negative. -/
theorem Backoff.delayFor_nonneg {b : Backoff} (hb : 0 ≤ b.base) (ordered : b.base ≤ b.cap)
    (cap_le : b.cap ≤ 2 ^ 53) {n : Int} (few : n ≤ 971) : 0 ≤ (b.delayFor n).1 := by
  obtain ⟨x, drawn⟩ := unitFraction_finite b.random.next.1
  have delay : (b.delayFor n).1 = backoffDelay n b.base b.cap (.finite x) := by
    rw [← drawn]
    rfl
  have base_le : b.base ≤ 2 ^ 53 := ordered.trans cap_le
  have doubled : nearest b.base * 2 ^ doublings n < 2 ^ 1024 := by
    have factor : (2 : Rat) ^ doublings n ≤ 2 ^ 970 :=
      pow_le_pow_right₀ one_le_two (by unfold doublings; omega)
    calc nearest b.base * 2 ^ doublings n
        = b.base * 2 ^ doublings n := by rw [nearest_of_exact (exact_intCast hb base_le)]
      _ ≤ 2 ^ 53 * 2 ^ 970 := by
        gcongr
        exact_mod_cast base_le
      _ < 2 ^ 1024 := by
        rw [← pow_add]
        exact two_pow_lt (by decide)
  have kept : ¬ LosesValue n b.base (.finite x) := by
    rintro (none | ⟨-, many⟩ | ⟨-, large⟩)
    · cases none
    · omega
    · exact absurd large (not_le.mpr doubled)
  have cap_lt : b.cap < 2 ^ 63 := cap_le.trans_lt (by decide)
  rw [delay]
  exact ((backoffDelay_converts hb ordered cap_lt n _).2.2.2.2 cap_le kept).2.1

/-- The delays after these attempts, each with a fraction of its own. -/
def Backoff.delays : Backoff → List Int → List Millis
  | _, [] => []
  | b, attempt :: attempts => (b.delayFor attempt).1 :: delays (b.delayFor attempt).2 attempts

theorem Backoff.mem_delays {b : Backoff} {attempts : List Int} {d : Millis}
    (member : d ∈ b.delays attempts) :
    ∃ attempt ∈ attempts, ∃ f, d = backoffDelay attempt b.base b.cap f := by
  induction attempts generalizing b with
  | nil => cases member
  | cons attempt attempts ih =>
    rcases List.mem_cons.mp member with rfl | later
    · exact ⟨attempt, List.mem_cons_self, _, rfl⟩
    · obtain ⟨attempt', member', f, delay⟩ := ih later
      exact ⟨attempt', List.mem_cons_of_mem _ member', f, delay⟩

theorem Backoff.delays_pairwise {b : Backoff} (hb : 0 ≤ b.base) (hc : 0 ≤ b.cap)
    (base_lt : b.base < 2 ^ 63) (cap_lt : b.cap < 2 ^ 63) {attempts : List Int}
    (increasing : attempts.Pairwise fun n m => max n 1 < max m 1)
    (sound : ∀ d ∈ b.delays attempts, 0 ≤ d) : (b.delays attempts).Pairwise (· ≤ ·) := by
  induction attempts generalizing b with
  | nil => exact .nil
  | cons attempt attempts ih =>
    obtain ⟨first, others⟩ := List.pairwise_cons.mp increasing
    obtain ⟨sound_first, sound_others⟩ := List.forall_mem_cons.mp sound
    refine List.pairwise_cons.mpr ⟨fun d member => ?_, ih hb hc base_lt cap_lt others sound_others⟩
    obtain ⟨attempt', member', f, rfl⟩ := mem_delays member
    exact backoffDelay_le hb hc base_lt cap_lt (first attempt' member') sound_first
      (sound_others _ member)

/-- Delays grow from attempt to attempt until they reach the cap, whatever fractions are drawn: in
exact arithmetic without exception, and in doubles as far as none of them is negative. Attempts
below the first count as the first, and those that count as the same one are in the order of their
fractions. -/
theorem delays_grow {base cap : Millis} (hb : 0 ≤ base) (hc : 0 ≤ cap) :
    (∀ n f, backoffDelay n base cap f = doubles.delay n base cap f) ∧
    (∀ n m f g, max n 1 < max m 1 →
      rationals.delay n base cap f ≤ rationals.delay m base cap g) ∧
    (∀ n m f g, n ≤ m → f ≤ g → rationals.delay n base cap f ≤ rationals.delay m base cap g) ∧
    (∀ n f, ⌊min (rationals.unjittered n base) cap⌋ ≤ rationals.delay n base cap f ∧
      rationals.delay n base cap f ≤ ⌊min (11 / 10 * rationals.unjittered n base) cap⌋) ∧
    (∀ n m f, n ≤ m → cap ≤ rationals.unjittered n base → rationals.delay m base cap f = cap) ∧
    (∀ calls : List (Int × Rat), calls.Pairwise (fun c d => max c.1 1 < max d.1 1) →
      (calls.map fun c => rationals.delay c.1 base cap c.2).Pairwise (· ≤ ·)) ∧
    ∀ (b : Backoff) (attempts : List Int), b.base = base → b.cap = cap → base < 2 ^ 63 →
      cap < 2 ^ 63 → attempts.Pairwise (fun n m => max n 1 < max m 1) →
      (∀ d ∈ b.delays attempts, 0 ≤ d) → (b.delays attempts).Pairwise (· ≤ ·) := by
  refine ⟨fun n f => backoffDelay_eq n base cap f, fun n m f g => ExactDelay.delay_le hb hc,
    fun n m f g => ExactDelay.delay_mono hb hc, fun n f => ExactDelay.delay_band hb hc,
    fun n m f => ExactDelay.delay_eq_cap hb hc, fun calls increasing => ?_, ?_⟩
  · exact List.pairwise_map.mpr (increasing.imp (ExactDelay.delay_le hb hc))
  · rintro b attempts rfl rfl base_lt cap_lt
    exact b.delays_pairwise hb hc base_lt cap_lt

/-- Two attempts that count as the first draw their fractions independently. -/
theorem delays_drop_below_first :
    ¬ rationals.delay 0 100 5000 1 ≤ rationals.delay (0 + 1) 100 5000 0 ∧
      ¬ (Backoff.delays ⟨1000, 5000, .ofSeed 2⟩ [0, 1]).Pairwise (· ≤ ·) := by
  decide +kernel

theorem delays_grow_to_cap :
    let b : Backoff := ⟨1000, 5000, .ofSeed 2⟩
    (0 : Millis) ≤ b.base ∧ (0 : Millis) ≤ b.cap ∧
      rationals.delay 2 b.base b.cap 1 ≤ rationals.delay 3 b.base b.cap 0 ∧
      rationals.delay 7 b.base b.cap (1 / 2) = b.cap ∧
      b.delays [-1, 2, 3, 7] = [1090, 2170, 4313, 5000] ∧
      (b.delays [-1, 2, 3, 7]).Pairwise (· ≤ ·) := by
  intro b
  obtain ⟨-, later, -, -, reached, -, drawn⟩ :=
    delays_grow (show 0 ≤ b.base by decide) (show 0 ≤ b.cap by decide)
  have delays : b.delays [-1, 2, 3, 7] = [1090, 2170, 4313, 5000] := by decide +kernel
  refine ⟨by decide, by decide, later 2 3 1 0 (by decide), reached 4 7 _ (by decide) ?_, delays, ?_⟩
  · decide +kernel
  · exact drawn b _ rfl rfl (by norm_num) (by norm_num) (by decide) (by rw [delays]; decide)

end Parley

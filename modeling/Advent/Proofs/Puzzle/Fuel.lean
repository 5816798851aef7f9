/-
How much fuel a module takes in the end.

The fuel for a mass is the mass divided by three, less two, and the fuel for that fuel is
asked for next.  Counted from -3 on, the shift by two disappears: three more than the fuel
is a third of three more than the mass.  So the fuel that is added in the `k`-th round is
three more than the mass divided by `3 ^ k`, less three, and nothing once that is negative;
`share` is this number, and `share_required` says that a round takes each share to the next.

`load_is_the_sum_of_shares` adds the shares up.  All but finitely many are zero, which is
why the rounds come to an end.
-/
import Mathlib.Algebra.BigOperators.Finprod
import Mathlib.Algebra.Order.BigOperators.Group.Finset
import Mathlib.Tactic.Ring
import Advent.Puzzle.Fuel

namespace Advent.Puzzle.Fuel

/-! ### Rounds -/

/-- One round: the fuel for the mass that was added last is added to the total. -/
def nextRound (x : Int × Int) : Int × Int := (required x.1, x.2 + required x.1)

theorem load_zero : load 0 = 0 := by
  rw [load, if_pos rfl]

/-- A load is the fuel for the mass and the load of that fuel, also where no round is made. -/
theorem load_eq (mass : Int) : load mass = required mass + load (required mass) := by
  by_cases h : mass = 0
  · have hnone : required 0 = 0 := by decide
    rw [h, hnone, load_zero, Int.add_zero]
  · rw [load, if_neg h]

/-- The rounds end when nothing was added, with the load added to the total. -/
theorem rounds_end (mass : Int) :
    ∀ total : Int, ∃ n, nextRound^[n] (mass, total) = (0, total + load mass) ∧
      ∀ k < n, (nextRound^[k] (mass, total)).1 ≠ 0 := by
  induction mass using load.induct with
  | case1 =>
      intro total
      exact ⟨0, by simp [load_zero], fun k hk => absurd hk (Nat.not_lt_zero k)⟩
  | case2 mass hmass ih =>
      intro total
      obtain ⟨n, hend, hearlier⟩ := ih (total + required mass)
      have hround : nextRound (mass, total) = (required mass, total + required mass) := rfl
      refine ⟨n + 1, ?_, fun k hk => ?_⟩
      · rw [Function.iterate_succ_apply, hround, hend, load_eq mass, Int.add_assoc]
      · rcases k with _ | k
        · exact hmass
        · rw [Function.iterate_succ_apply, hround]
          exact hearlier k (by omega)

theorem load_nonneg (mass : Int) : 0 ≤ load mass := by
  induction mass using load.induct with
  | case1 => rw [load_zero]
  | case2 mass hmass ih =>
      have hfuel : 0 ≤ required mass := Int.le_max_right _ _
      rw [load_eq]
      omega

/-- At most half of a mass is needed in fuel, since each round needs less than a third of the one
before. -/
theorem two_mul_load_le (mass : Int) : 2 * load mass ≤ max mass 0 := by
  induction mass using load.induct with
  | case1 => simp [load_zero]
  | case2 mass hmass ih =>
      have hload := load_eq mass
      -- the fuel is at most a third of the mass, and its own load at most half of the fuel
      unfold required at hload ih
      omega

/-! ### Shares

Three more than the fuel is a third of three more than the mass.  Dividing by three again and again
is dividing by a power of three, so no share depends on another.
-/

/-- What the `k`-th round adds for a mass, the first round being number one. -/
def share (mass : Int) (k : Nat) : Int := max ((mass + 3) / 3 ^ k - 3) 0

theorem share_one (mass : Int) : share mass 1 = required mass := by
  unfold share required
  omega

theorem share_eq_zero_iff (mass : Int) (k : Nat) : share mass k = 0 ↔ (mass + 3) / 3 ^ k ≤ 3 := by
  unfold share
  omega

theorem share_mono (k : Nat) {mass mass' : Int} (h : mass ≤ mass') : share mass k ≤ share mass' k := by
  have hpos : (0 : Int) < 3 ^ k := Int.pow_pos (by decide)
  have hdiv : (mass + 3) / 3 ^ k ≤ (mass' + 3) / 3 ^ k := Int.ediv_le_ediv hpos (by omega)
  unfold share
  omega

theorem ediv_pow_le_three {n : Int} (h : n ≤ 3) (k : Nat) : n / 3 ^ k ≤ 3 := by
  have hpos : (0 : Int) < 3 ^ k := Int.pow_pos (by decide)
  exact Int.ediv_le_of_le_mul hpos (by omega)

/-- **A round takes every share to the next one.** -/
theorem share_required (mass : Int) (k : Nat) : share (required mass) (k + 1) = share mass (k + 2) := by
  have hnext : (mass + 3) / 3 ^ (k + 2) = (mass + 3) / 3 / 3 ^ (k + 1) := by
    rw [Int.ediv_ediv_of_nonneg (by decide)]
    congr 1
    ring
  by_cases h : 3 ≤ (mass + 3) / 3
  · have hfuel : required mass + 3 = (mass + 3) / 3 := by
      unfold required
      omega
    unfold share
    rw [hfuel, hnext]
  · -- no fuel is needed, so this share and all that follow are zero
    have hfuel : required mass = 0 := by
      unfold required
      omega
    have hleft : share (required mass) (k + 1) = 0 := by
      rw [hfuel, share_eq_zero_iff]
      exact ediv_pow_le_three (Int.le_refl 3) (k + 1)
    have hright : share mass (k + 2) = 0 := by
      rw [share_eq_zero_iff, hnext]
      exact ediv_pow_le_three (by omega) (k + 1)
    rw [hleft, hright]

theorem share_eq_zero {mass : Int} {k : Nat} (h : mass.natAbs ≤ k) : share mass (k + 1) = 0 := by
  have hpos : (0 : Int) < 3 ^ (k + 1) := Int.pow_pos (by decide)
  have hlt : ((k + 1 : Nat) : Int) < 3 ^ (k + 1) := by
    exact_mod_cast (Nat.lt_pow_self (by decide) : k + 1 < 3 ^ (k + 1))
  rw [share_eq_zero_iff]
  exact Int.ediv_le_of_le_mul hpos (by omega)

/-! ### Adding up -/

/-- The shares up to one that is zero. -/
theorem load_eq_sum_range (n : Nat) :
    ∀ {mass : Int}, share mass (n + 1) = 0 → load mass = ∑ k ∈ Finset.range n, share mass (k + 1) := by
  induction n with
  | zero =>
      intro mass h
      rw [share_one] at h
      rw [load_eq, h, load_zero, Finset.sum_range_zero, Int.add_zero]
  | succ n ih =>
      intro mass h
      -- the shares of the fuel are those of the mass without the first
      rw [← share_required] at h
      rw [load_eq, ih h, Finset.sum_range_succ', share_one, Int.add_comm]
      simp only [share_required]

theorem support_share_subset (mass : Int) :
    (Function.support fun k => share mass (k + 1)) ⊆ ↑(Finset.range mass.natAbs) := by
  intro k hk
  have hlt : k < mass.natAbs := Nat.lt_of_not_le fun hle => hk (share_eq_zero hle)
  simpa using hlt

theorem load_eq_finsum (mass : Int) : load mass = ∑ᶠ k, share mass (k + 1) := by
  rw [finsum_eq_sum_of_support_subset _ (support_share_subset mass)]
  exact load_eq_sum_range mass.natAbs (share_eq_zero (Nat.le_refl _))

theorem load_mono {mass mass' : Int} (h : mass ≤ mass') : load mass ≤ load mass' := by
  have hmass := load_eq_sum_range (max mass.natAbs mass'.natAbs) (share_eq_zero (Nat.le_max_left _ _))
  have hmass' := load_eq_sum_range (max mass.natAbs mass'.natAbs) (share_eq_zero (Nat.le_max_right _ _))
  rw [hmass, hmass']
  exact Finset.sum_le_sum fun k _ => share_mono (k + 1) h

/--
**The rounds end for every mass, and the load is the sum of the shares.**  Only finitely
many shares are not zero.  A load is never negative, grows with the mass, and is at most
half of it, or zero where the mass is negative.
-/
theorem load_is_the_sum_of_shares (mass : Int) :
    (∃ n, nextRound^[n] (mass, 0) = (0, load mass) ∧ ∀ k < n, (nextRound^[k] (mass, 0)).1 ≠ 0) ∧
      (Function.support fun k : Nat => max ((mass + 3) / 3 ^ (k + 1) - 3) 0).Finite ∧
      load mass = ∑ᶠ k : Nat, max ((mass + 3) / 3 ^ (k + 1) - 3) 0 ∧
      0 ≤ load mass ∧ (∀ mass', mass ≤ mass' → load mass ≤ load mass') ∧
      2 * load mass ≤ max mass 0 := by
  refine ⟨?_, ?_, load_eq_finsum mass, load_nonneg mass, fun mass' h => load_mono h, two_mul_load_le mass⟩
  · simpa using rounds_end mass 0
  · exact (Finset.finite_toSet _).subset (support_share_subset mass)

/-- A module lighter than nothing takes no fuel, and a heavy one some, but less than half its mass. -/
theorem heavy_module_takes_more :
    (-5 : Int) ≤ 1969 ∧ load (-5) = 0 ∧ load 1969 = 966 ∧ load (-5) ≤ load 1969 ∧ 2 * load 1969 ≤ 1969 := by
  obtain ⟨-, -, -, hnonneg, hmono, hlight⟩ := load_is_the_sum_of_shares (-5)
  obtain ⟨-, -, -, -, -, hheavy⟩ := load_is_the_sum_of_shares 1969
  have hload : load 1969 = 966 := by
    rw [load_eq_sum_range 7 (by decide)]
    decide
  exact ⟨by decide, by omega, hload, hmono 1969 (by decide), by omega⟩

end Advent.Puzzle.Fuel

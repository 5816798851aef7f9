/-
The layer that the checksum is taken from.

Going through the layers one after another and keeping the best so far, a layer is given up only for
one that has fewer zeros.  So the layer that is kept in the end has the fewest zeros, and all layers
above it have more (`fewestZeros_le` and `fewestZeros_first`, by induction on the layers).  There is
one such layer only (`FirstLeast.unique`), which is how it is found again after a change: where it
stands is where the numbers of zeros have their first minimum, and the changes looked at here move
this minimum by a place at most.
-/
import Advent.Proofs.Puzzle.Layers

namespace Advent.Puzzle.Image

/-! ### The first of the least -/

/-- Among the first `count` values of a sequence, value `k` is the first that is least. -/
structure FirstLeast (value : Nat → Nat) (count k : Nat) : Prop where
  lt : k < count
  least : ∀ j < count, value k ≤ value j
  first : ∀ j < k, value k < value j

section

variable {value value' : Nat → Nat} {count k k' j : Nat}

/-- There is one first of the least. -/
theorem FirstLeast.unique (h : FirstLeast value count k) (h' : FirstLeast value count k') : k = k' := by
  rcases Nat.lt_trichotomy k k' with hlt | heq | hlt
  · exact absurd (h'.first k hlt) (Nat.not_lt_of_le (h.least k' h'.lt))
  · exact heq
  · exact absurd (h.first k' hlt) (Nat.not_lt_of_le (h'.least k h.lt))

theorem FirstLeast.congr (h : FirstLeast value count k) (hsame : ∀ i < count, value' i = value i) :
    FirstLeast value' count k where
  lt := h.lt
  least := fun i hi => by
    rw [hsame k h.lt, hsame i hi]
    exact h.least i hi
  first := fun i hi => by
    rw [hsame k h.lt, hsame i (Nat.lt_trans hi h.lt)]
    exact h.first i hi

/-- A further value that is not below an earlier one is not the first of the least. -/
theorem FirstLeast.succ (h : FirstLeast value count k) (hj : j < count) (hle : value j ≤ value count) :
    FirstLeast value (count + 1) k where
  lt := Nat.lt_succ_of_lt h.lt
  least := fun i hi => by
    rcases Nat.lt_succ_iff_lt_or_eq.mp hi with hlt | rfl
    · exact h.least i hlt
    · exact Nat.le_trans (h.least j hj) hle
  first := h.first

/-- The place of a value once value `j` is left out. -/
def withoutPlace (j i : Nat) : Nat := if i < j then i else i + 1

/-- Leaving out another value than the first of the least moves this one at most by a place. -/
theorem FirstLeast.without (h : FirstLeast value (count + 1) k) (hj : j < count + 1) (hne : j ≠ k) :
    ∃ i, withoutPlace j i = k ∧ FirstLeast (fun i => value (withoutPlace j i)) count i := by
  have hlt := h.lt
  have hplace : ∀ i, i < j ∧ withoutPlace j i = i ∨ j ≤ i ∧ withoutPlace j i = i + 1 := by
    intro i
    unfold withoutPlace
    split <;> omega
  -- the value stays where it is if the other one comes behind it, and moves up if before
  obtain ⟨i, hi⟩ : ∃ i, withoutPlace j i = k := by
    rcases Nat.lt_or_gt_of_ne hne with hbefore | hbehind
    · obtain ⟨i, rfl⟩ : ∃ i, k = i + 1 := ⟨k - 1, by omega⟩
      have := hplace i
      exact ⟨i, by omega⟩
    · have := hplace k
      exact ⟨k, by omega⟩
  refine ⟨i, hi, ?_, fun l hl => ?_, fun l hl => ?_⟩
  · have := hplace i
    omega
  · have := hplace l
    show value (withoutPlace j i) ≤ _
    rw [hi]
    exact h.least _ (by omega)
  · have := hplace l
    have := hplace i
    show value (withoutPlace j i) < _
    rw [hi]
    exact h.first _ (by omega)

end

/-! ### The layer that is kept -/

/-- No layer has fewer zeros than the one that is kept. -/
theorem fewestZeros_le (best : List Nat) (rest : List (List Nat)) :
    ∀ layer ∈ best :: rest, (fewestZeros best rest).count 0 ≤ layer.count 0 := by
  induction rest generalizing best with
  | nil =>
      intro layer hlayer
      obtain rfl := List.mem_singleton.mp hlayer
      exact Nat.le_refl _
  | cons next rest ih =>
      rw [fewestZeros]
      obtain ⟨hkept, hrest⟩ :=
        List.forall_mem_cons.mp (ih (if next.count 0 < best.count 0 then next else best))
      have hle : (if next.count 0 < best.count 0 then next else best).count 0 ≤ best.count 0 ∧
          (if next.count 0 < best.count 0 then next else best).count 0 ≤ next.count 0 := by
        split <;> omega
      exact List.forall_mem_cons.mpr
        ⟨Nat.le_trans hkept hle.1, List.forall_mem_cons.mpr ⟨Nat.le_trans hkept hle.2, hrest⟩⟩

/-- All layers above the one that is kept have more zeros. -/
theorem fewestZeros_first (best : List Nat) (rest : List (List Nat)) :
    ∃ above below, best :: rest = above ++ fewestZeros best rest :: below ∧
      ∀ layer ∈ above, (fewestZeros best rest).count 0 < layer.count 0 := by
  induction rest generalizing best with
  | nil => exact ⟨[], [], rfl, nofun⟩
  | cons next rest ih =>
      rw [fewestZeros]
      by_cases hfewer : next.count 0 < best.count 0
      · rw [if_pos hfewer]
        obtain ⟨above, below, hstack, habove⟩ := ih next
        have hnext := fewestZeros_le next rest next List.mem_cons_self
        refine ⟨best :: above, below, by rw [hstack, List.cons_append], ?_⟩
        exact List.forall_mem_cons.mpr ⟨Nat.lt_of_le_of_lt hnext hfewer, habove⟩
      · rw [if_neg hfewer]
        obtain ⟨above, below, hstack, habove⟩ := ih best
        cases above with
        | nil => exact ⟨[], next :: rest, by rw [← (List.cons.inj hstack).1]; rfl, nofun⟩
        | cons first above =>
            obtain ⟨rfl, hrest⟩ := List.cons.inj hstack
            obtain ⟨hbest, habove⟩ := List.forall_mem_cons.mp habove
            have hnext := Nat.lt_of_lt_of_le hbest (Nat.le_of_not_lt hfewer)
            refine ⟨best :: next :: above, below, ?_, ?_⟩
            · exact congrArg (best :: next :: ·) hrest
            · exact List.forall_mem_cons.mpr ⟨hbest, List.forall_mem_cons.mpr ⟨hnext, habove⟩⟩

/-! ### Layers by their places

Layers are found again by their places, since two of them may be equal.  Which one is kept is a
matter of how many zeros there are at each place.
-/

/-- The digits of layer `k`. -/
def layerAt (size : Nat) (digits : List Nat) (k : Nat) : List Nat := (digits.drop (k * size)).take size

/-- Layer `k` is the first of those that have the fewest zeros. -/
def Chosen (size : Nat) (digits : List Nat) (k : Nat) : Prop :=
  FirstLeast (fun j => (layerAt size digits j).count 0) (digits.length / size) k

variable {size k : Nat} {digits digits' : List Nat}

theorem exists_chosen (hsize : 0 < size) (h : Whole size digits) :
    ∃ k, Chosen size digits k ∧
      checksum size digits =
        .ok ((layerAt size digits k).count 1 * (layerAt size digits k).count 2) := by
  have hcount : 0 < digits.length / size :=
    Nat.div_pos (Nat.le_of_dvd (List.length_pos_iff.mpr h.1) h.2) hsize
  cases hblocks : blocks size (digits.length / size) digits with
  | nil =>
      have hlength := length_blocks size (digits.length / size) digits
      rw [hblocks, List.length_nil] at hlength
      omega
  | cons best rest =>
      have hlayer : ∀ j < digits.length / size, (best :: rest)[j]? = some (layerAt size digits j) :=
        fun j hj => hblocks ▸ getElem?_blocks hj digits
      obtain ⟨above, below, hstack, habove⟩ := fewestZeros_first best rest
      have hk : above.length < digits.length / size := by
        rw [← length_blocks size (digits.length / size) digits, hblocks, hstack, List.length_append,
          List.length_cons]
        omega
      have hkept : layerAt size digits above.length = fewestZeros best rest := by
        have hplace := hlayer above.length hk
        rw [hstack] at hplace
        simpa using hplace.symm
      -- the layer that is kept stands where the layers above it end
      refine ⟨above.length, ⟨hk, fun j hj => ?_, fun j hj => ?_⟩, ?_⟩
      · rw [hkept]
        exact fewestZeros_le best rest _ (List.mem_of_getElem? (hlayer j hj))
      · have hplace := hlayer j (Nat.lt_trans hj hk)
        rw [hstack, List.getElem?_append_left hj] at hplace
        rw [hkept]
        exact habove _ (List.mem_of_getElem? hplace)
      · rw [checksum, layers_of_whole hsize h, hblocks, hkept]
        rfl

theorem whole_of_length {count : Nat} (hsize : 0 < size) (hcount : 0 < count)
    (hlength : digits.length = count * size) : Whole size digits := by
  refine ⟨fun hnil => ?_, hlength ▸ Nat.dvd_mul_left size count⟩
  have hpos := Nat.mul_pos hcount hsize
  rw [hnil, List.length_nil] at hlength
  omega

theorem Whole.mul_le (h : Whole size digits) {j : Nat} (hj : j < digits.length / size) :
    j * size + size ≤ digits.length := by
  have hle := Nat.mul_le_mul_right size (Nat.succ_le_of_lt hj)
  rwa [Nat.div_mul_cancel h.2, Nat.succ_mul] at hle

/-- The checksum is that of the chosen layer, since there is one only. -/
theorem checksum_of_chosen (hsize : 0 < size) (h : Whole size digits) (hk : Chosen size digits k) :
    checksum size digits = .ok ((layerAt size digits k).count 1 * (layerAt size digits k).count 2) := by
  obtain ⟨k', hk', hchecksum⟩ := exists_chosen hsize h
  rwa [hk.unique hk']

/-! ### What leaves the checksum as it is

Each change keeps the digits of the chosen layer, up to their order, and keeps it the first that has
the fewest zeros, though it may come to stand at another place.
-/

theorem checksum_of_permuted (hsize : 0 < size) (h : Whole size digits)
    (hlength : digits'.length = digits.length)
    (hperm : ∀ j < digits.length / size, (layerAt size digits' j).Perm (layerAt size digits j)) :
    checksum size digits' = checksum size digits := by
  obtain ⟨k, hk, hchecksum⟩ := exists_chosen hsize h
  have hwhole' : Whole size digits' :=
    whole_of_length hsize (Nat.zero_lt_of_lt hk.lt) (hlength.trans (Nat.div_mul_cancel h.2).symm)
  have hk' : Chosen size digits' k := by
    rw [Chosen, hlength]
    exact hk.congr fun j hj => (hperm j hj).count_eq 0
  rw [hchecksum, checksum_of_chosen hsize hwhole' hk', (hperm k hk.lt).count_eq, (hperm k hk.lt).count_eq]

theorem layerAt_append {j : Nat} (hj : j * size + size ≤ digits.length) (extra : List Nat) :
    layerAt size (digits ++ extra) j = layerAt size digits j := by
  rw [layerAt, layerAt, List.drop_append_of_le_length (by omega),
    List.take_append_of_le_length (by rw [List.length_drop]; omega)]

theorem layerAt_take {j n : Nat} (hj : j * size + size ≤ n) :
    layerAt size (digits.take n) j = layerAt size digits j := by
  rw [layerAt, layerAt, List.drop_take, List.take_take, Nat.min_eq_left (by omega)]

theorem checksum_of_appended (hsize : 0 < size) (h : Whole size digits) {extra : List Nat}
    (hextra : extra.length = size) {j : Nat} (hj : j < digits.length / size)
    (hle : (layerAt size digits j).count 0 ≤ extra.count 0) :
    checksum size (digits ++ extra) = checksum size digits := by
  obtain ⟨k, hk, hchecksum⟩ := exists_chosen hsize h
  have hold : ∀ i < digits.length / size, layerAt size (digits ++ extra) i = layerAt size digits i :=
    fun i hi => layerAt_append (h.mul_le hi) extra
  have hnew : layerAt size (digits ++ extra) (digits.length / size) = extra := by
    rw [layerAt, Nat.div_mul_cancel h.2, List.drop_left, List.take_of_length_le (Nat.le_of_eq hextra)]
  have hcount : (digits ++ extra).length / size = digits.length / size + 1 := by
    rw [List.length_append, hextra, Nat.add_div_right _ hsize]
  have hk' : Chosen size (digits ++ extra) k := by
    rw [Chosen, hcount]
    refine FirstLeast.succ (hk.congr fun i hi => by rw [hold i hi]) hj ?_
    rwa [hold j hj, hnew]
  have hwhole' : Whole size (digits ++ extra) :=
    h.append (whole_of_length hsize Nat.one_pos (by rw [hextra, Nat.one_mul]))
  rw [hchecksum, checksum_of_chosen hsize hwhole' hk', hold k hk.lt]

/-- The digits without those of layer `j`. -/
def withoutLayer (size : Nat) (digits : List Nat) (j : Nat) : List Nat :=
  digits.take (j * size) ++ digits.drop ((j + 1) * size)

theorem layerAt_withoutLayer (h : Whole size digits) {j : Nat} (hj : j < digits.length / size) (i : Nat) :
    layerAt size (withoutLayer size digits j) i = layerAt size digits (withoutPlace j i) := by
  have hfits := h.mul_le hj
  have hlength : (digits.take (j * size)).length = j * size := by
    rw [List.length_take, Nat.min_eq_left (by omega)]
  rw [withoutLayer, withoutPlace]
  split
  · rename_i hbefore
    have hle := Nat.mul_le_mul_right size (Nat.succ_le_of_lt hbefore)
    rw [Nat.succ_mul] at hle
    rw [layerAt_append (by rwa [hlength]), layerAt_take hle]
  · rename_i hbehind
    obtain ⟨n, rfl⟩ := Nat.exists_eq_add_of_le (Nat.le_of_not_lt hbehind)
    have hplace : (j + n) * size = (digits.take (j * size)).length + n * size := by
      rw [hlength, Nat.add_mul]
    rw [layerAt, hplace, List.drop_length_add_append, List.drop_drop, ← Nat.add_mul,
      Nat.add_right_comm, layerAt]

theorem checksum_of_withoutLayer (hsize : 0 < size) (h : Whole size digits) (hk : Chosen size digits k)
    {j : Nat} (hj : j < digits.length / size) (hne : j ≠ k) :
    checksum size (withoutLayer size digits j) = checksum size digits := by
  obtain ⟨count, hcount⟩ : ∃ count, digits.length / size = count + 1 := ⟨digits.length / size - 1, by omega⟩
  have hfits := h.mul_le hj
  have hlength : (withoutLayer size digits j).length = count * size := by
    have hall := Nat.div_mul_cancel h.2
    rw [hcount, Nat.succ_mul] at hall
    rw [withoutLayer, List.length_append, List.length_take, List.length_drop, Nat.succ_mul]
    omega
  have hk' := hk
  rw [Chosen, hcount] at hk'
  rw [hcount] at hj
  obtain ⟨i, rfl, hi⟩ := hk'.without hj hne
  have hchosen : Chosen size (withoutLayer size digits j) i := by
    rw [Chosen, hlength, Nat.mul_div_cancel _ hsize]
    exact hi.congr fun l _ => by rw [layerAt_withoutLayer h (by omega)]
  have hwhole' : Whole size (withoutLayer size digits j) :=
    whole_of_length hsize (Nat.zero_lt_of_lt hi.lt) hlength
  rw [checksum_of_chosen hsize h hk, checksum_of_chosen hsize hwhole' hchosen,
    layerAt_withoutLayer h (by omega)]

/-- **The checksum is taken from the first layer that has the fewest zeros.**  It is the number of
ones times the number of twos there.  So it remains the same when the digits of layers change their
order, when a layer comes below that has no fewer zeros than one above it, and when any other layer
is taken away. -/
theorem checksum_is_of_first_layer_with_fewest_zeros (size : Nat) (hsize : 0 < size) (digits : List Nat)
    (hne : digits ≠ []) (hwhole : size ∣ digits.length) :
    ∃ k, k < digits.length / size ∧
      (∀ j < digits.length / size,
        (layerAt size digits k).count 0 ≤ (layerAt size digits j).count 0) ∧
      (∀ j < k, (layerAt size digits k).count 0 < (layerAt size digits j).count 0) ∧
      checksum size digits =
        .ok ((layerAt size digits k).count 1 * (layerAt size digits k).count 2) ∧
      (∀ digits', digits'.length = digits.length →
        (∀ j < digits.length / size, (layerAt size digits' j).Perm (layerAt size digits j)) →
          checksum size digits' = checksum size digits) ∧
      (∀ extra, extra.length = size →
        (∃ j < digits.length / size, (layerAt size digits j).count 0 ≤ extra.count 0) →
          checksum size (digits ++ extra) = checksum size digits) ∧
      ∀ j < digits.length / size, j ≠ k →
        checksum size (withoutLayer size digits j) = checksum size digits := by
  have h : Whole size digits := ⟨hne, hwhole⟩
  obtain ⟨k, hk, hchecksum⟩ := exists_chosen hsize h
  refine ⟨k, hk.lt, hk.least, hk.first, hchecksum, fun digits' => checksum_of_permuted hsize h,
    fun extra hextra => ?_, fun j => checksum_of_withoutLayer hsize h hk⟩
  rintro ⟨j, hj, hle⟩
  exact checksum_of_appended hsize h hextra hj hle

/-- The third and the fourth layer have no zeros, and the third is the one that counts, whether
the digits of the layers are turned round, a layer comes below, or the first one is taken away. -/
theorem third_of_four_layers_counts :
    let digits := [0, 1, 2, 0, 0, 1, 1, 1, 2, 1, 1, 1]
    (0 < 3 ∧ digits ≠ [] ∧ 3 ∣ digits.length) ∧ checksum 3 digits = .ok 2 ∧
      checksum 3 [2, 1, 0, 1, 0, 0, 2, 1, 1, 1, 1, 1] = .ok 2 ∧
      checksum 3 (digits ++ [2, 0, 2]) = .ok 2 ∧
      checksum 3 [0, 0, 1, 1, 1, 2, 1, 1, 1] = .ok 2 := by
  intro digits
  have hchecksum : checksum 3 digits = .ok 2 := by decide +kernel
  obtain ⟨k, -, hleast, -, -, hpermuted, happended, hwithout⟩ :=
    checksum_is_of_first_layer_with_fewest_zeros 3 (by decide) digits (by decide) (by decide)
  have hk : 0 ≠ k := by
    rintro rfl
    exact absurd (hleast 2 (by decide)) (by decide)
  refine ⟨by decide, hchecksum, ?_, ?_, ?_⟩
  · exact (hpermuted [2, 1, 0, 1, 0, 0, 2, 1, 1, 1, 1, 1] rfl (by decide)).trans hchecksum
  · exact (happended [2, 0, 2] rfl ⟨0, by decide⟩).trans hchecksum
  · exact (hwithout 0 (by decide) hk).trans hchecksum

end Advent.Puzzle.Image

import GoPosix.MkfsMinix.Basic

/-!
# The layout `mkfs.minix` finds

With `base` blocks apart from the zone bitmap and the data zones, a bitmap of `z` blocks leaves
`blocks - base - z` data zones, and `next` is the number of blocks a bitmap for these needs. A
layout fits if `z` is a fixed point of `next`.

`next` takes only two values on the numbers that occur, and neighbouring ones. So the loop finds a
fixed point in three turns (`zmapLoop_of_fixed`), or it swings between the two until its turns are
used up (`zmapLoop_swing`) and stops with a first data zone that does not belong to its bitmap. This
happens exactly if `blocks - base` is a multiple of 8193 (`zmapLoop_spec`).
-/

namespace GoPosix.MkfsMinix

open MachineInt

section Loop

variable {blocks imapBlocks inodeBlocks : Int}

/-- The bitmap blocks that are needed if the bitmap has `z` blocks. -/
def next (blocks imapBlocks inodeBlocks z : Int) : Int :=
  sbZmaps blocks (2 + imapBlocks + z + inodeBlocks)

theorem zmapLoop_of_fixed (hz : next blocks imapBlocks inodeBlocks z = z) (n : Nat)
    (f : Int) : zmapLoop blocks imapBlocks inodeBlocks (n + 1)
      (z, f) = (z, 2 + imapBlocks + z + inodeBlocks) := by
  exact if_pos hz.symm

theorem zmapLoop_of_not_fixed (hz : next blocks imapBlocks inodeBlocks z = z')
    (hne : z ≠ z') (n : Nat) (f : Int) : zmapLoop blocks imapBlocks inodeBlocks (n + 1) (z, f) =
      zmapLoop blocks imapBlocks inodeBlocks n (z', 2 + imapBlocks + z + inodeBlocks) := by
  subst hz
  exact if_neg hne

/-- Between two numbers that need each other the loop swings to its end. -/
theorem zmapLoop_swing (ha : next blocks imapBlocks inodeBlocks a = b)
    (hb : next blocks imapBlocks inodeBlocks b = a) (hne : a ≠ b) (k : Nat) : ∀ f : Int,
      zmapLoop blocks imapBlocks inodeBlocks (2 * k + 1) (a, f) =
          (b, 2 + imapBlocks + a + inodeBlocks) := by
  induction k with
  | zero =>
    intro f
    rw [zmapLoop_of_not_fixed ha hne]
    rfl
  | succ k ih =>
    intro f
    rw [show 2 * (k + 1) + 1 = 2 * k + 1 + 1 + 1 from rfl, zmapLoop_of_not_fixed ha hne,
      zmapLoop_of_not_fixed hb hne.symm, ih]

variable (hblocks : 10 ≤ blocks ∧ blocks ≤ 65535) (himap : 0 ≤ imapBlocks ∧ imapBlocks ≤ 8)
  (hinode : 0 ≤ inodeBlocks ∧ inodeBlocks ≤ 2048)

include hblocks himap hinode

theorem next_eq (hz : 0 ≤ z ∧ z ≤ 10) : next blocks imapBlocks inodeBlocks z =
    (blocks - (2 + imapBlocks + inodeBlocks) - z + 8192) / 8192 := by
  rw [next, sbZmaps, wrap64_of_lt (by omega) (by omega), Int.tdiv_eq_ediv_of_nonneg (by omega)]
  omega

/-- **What the loop finds.** If there is room for data zones, the bitmap is large enough for them;
and the first data zone is behind the bitmap and the inode table, or one further if the blocks left
are a multiple of 8193. -/
theorem zmapLoop_spec
    (hl : zmapLoop blocks imapBlocks inodeBlocks 1000 (0, 0) = (z, f)) (hf : f < blocks) :
    1 ≤ z ∧ z ≤ 8 ∧ blocks - f < 8192 * z ∧
      (¬ (8193 : Int) ∣ blocks - (2 + imapBlocks + inodeBlocks) ∧
          f = 2 + imapBlocks + z + inodeBlocks ∨
            (8193 : Int) ∣ blocks - (2 + imapBlocks + inodeBlocks) ∧
          f = 2 + imapBlocks + (z + 1) + inodeBlocks) := by
  generalize hm : blocks - (2 + imapBlocks + inodeBlocks) = m
  have hn : ∀ z, 0 ≤ z ∧ z ≤ 10 → next blocks imapBlocks inodeBlocks z = (m - z + 8192) / 8192 :=
    fun z hz => hm ▸ next_eq hblocks himap hinode hz
  by_cases hneg : m < 0
  · -- no room: zero blocks are a fixed point
    have h0 : next blocks imapBlocks inodeBlocks 0 = 0 := by
      rw [hn 0 (by omega)]
      omega
    rw [zmapLoop_of_fixed h0] at hl
    obtain ⟨rfl, rfl⟩ := Prod.mk.inj hl
    omega
  · obtain ⟨q, hq⟩ : ∃ q, q = m / 8192 + 1 := ⟨_, rfl⟩
    have h0 : next blocks imapBlocks inodeBlocks 0 = q := by
      rw [hn 0 (by omega)]
      omega
    rw [zmapLoop_of_not_fixed h0 (by omega)] at hl
    by_cases h1 : next blocks imapBlocks inodeBlocks q = q
    · rw [zmapLoop_of_fixed h1] at hl
      obtain ⟨rfl, rfl⟩ := Prod.mk.inj hl
      rw [hn q (by omega)] at h1
      omega
    have h2 : next blocks imapBlocks inodeBlocks q = q - 1 := by
      rw [hn q (by omega)] at h1 ⊢
      omega
    by_cases h3 : next blocks imapBlocks inodeBlocks (q - 1) = q - 1
    · rw [zmapLoop_of_not_fixed h2 (by omega), zmapLoop_of_fixed h3] at hl
      obtain ⟨rfl, rfl⟩ := Prod.mk.inj hl
      rw [hn _ (by omega)] at h2 h3
      omega
    · have h4 : next blocks imapBlocks inodeBlocks (q - 1) = q := by
        rw [hn _ (by omega)] at h3 ⊢
        omega
      rw [show 999 = 2 * 499 + 1 from rfl, zmapLoop_swing h2 h4 (by omega)] at hl
      obtain ⟨rfl, rfl⟩ := Prod.mk.inj hl
      rw [hn _ (by omega)] at h2 h4
      omega

end Loop

/-! ## Layouts with data zones -/

/-- A layout with numbers in range, whose bitmaps have a bit for each inode and each data zone. -/
structure Layout.Usable (l : Layout) : Prop where
  blocks : l.blocks ≤ 65535
  inodes : 16 ≤ l.inodes ∧ l.inodes ≤ 65535
  imap : 1 ≤ l.imapBlocks ∧ l.imapBlocks ≤ 8 ∧ l.inodes < 8192 * l.imapBlocks
  zmap : 1 ≤ l.zmapBlocks ∧ l.zmapBlocks ≤ 8
  first : 0 ≤ l.firstDataZone ∧ l.firstDataZone < l.blocks
  room : l.blocks - l.firstDataZone < 8192 * l.zmapBlocks

theorem Layout.Usable.exists_nat {l : Layout} (hl : l.Usable) :
    ∃ b n im z f : Nat, l = ⟨b, n, im, z, f⟩ ∧ b ≤ 65535 ∧ (1 ≤ n ∧ n ≤ 65535 ∧ n < 8192 * im) ∧
      (im ≤ 8 ∧ z ≤ 8) ∧ f < b ∧ b - f < 8192 * z := by
  obtain ⟨hb, hn, him, hz, hf, hr⟩ := hl
  obtain ⟨b, n, im, z, f⟩ := l
  simp only at hb hn him hz hf hr
  refine ⟨b.toNat, n.toNat, im.toNat, z.toNat, f.toNat, ?_, by omega, by omega, by omega, by
    omega, by omega⟩
  rw [Layout.mk.injEq]
  omega

/-- The first data zone is the block behind the zone bitmap and the inode table. -/
def Layout.Fits (l : Layout) : Prop :=
  l.firstDataZone = 2 + l.imapBlocks + l.zmapBlocks + inodeBlocksFor l.inodes

theorem roundInodes_bounds (blocks i : Int) :
    16 ≤ roundInodes blocks i ∧ roundInodes blocks i ≤ 65535 := by
  simp only [roundInodes]
  split_ifs <;> omega

/-- The blocks before the data zones that do not depend on their number: boot block, superblock,
inode bitmap and inode table. -/
def baseBlocks (blocks inodes : Int) : Int :=
  2 + imapBlocksFor (roundInodes blocks inodes) + inodeBlocksFor (roundInodes blocks inodes)

/-- **The layout.** If there is room for a data zone the layout is usable, and it fits unless the
blocks for the zone bitmap and the data zones are a multiple of 8193. -/
theorem layoutFor_spec (hblocks : 10 ≤ blocks ∧ blocks ≤ 65535)
    (hf : (layoutFor blocks inodes).firstDataZone < blocks) : (layoutFor blocks inodes).Usable ∧
      ((layoutFor blocks inodes).Fits ↔ ¬ (8193 : Int) ∣ blocks - baseBlocks blocks inodes) := by
  obtain ⟨hlow, hhigh⟩ := roundInodes_bounds blocks inodes
  unfold baseBlocks
  generalize hn : roundInodes blocks inodes = n at *
  have himap : imapBlocksFor n = (n + 1 + 8191) / 8192 := Int.tdiv_eq_ediv_of_nonneg (by omega)
  have hinode : inodeBlocksFor n = (n * 32 + 1023) / 1024 := Int.tdiv_eq_ediv_of_nonneg (by omega)
  obtain ⟨z, f, hloop⟩ : ∃ z f, zmapLoop blocks (imapBlocksFor n) (inodeBlocksFor n) 1000 (0, 0) =
    (z, f) := ⟨_, _, rfl⟩
  have hl : layoutFor blocks inodes = ⟨blocks, n, imapBlocksFor n, z, f⟩ := by
    simp only [layoutFor, hn, hloop]
  rw [hl] at hf ⊢
  obtain ⟨hz, hz8, hr, hfinal⟩ := zmapLoop_spec hblocks (by omega) (by omega) hloop hf
  refine ⟨⟨hblocks.2, ⟨hlow, hhigh⟩, ?_, ⟨hz, hz8⟩, ⟨?_, hf⟩, hr⟩, ?_⟩
  · simp only
    omega
  · simp only
    omega
  unfold Layout.Fits
  rcases hfinal with ⟨hnone, hf'⟩ | ⟨hd, hf'⟩
  · exact iff_of_true hf' hnone
  · simp only
    omega

end GoPosix.MkfsMinix

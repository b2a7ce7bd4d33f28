import GoPosix.MkfsMinix.Layout

/-!
# The image `mkfs.minix` writes

`Consistent` is what a file system checker would ask, in terms of the image alone: the superblock is
read from block 1, and the bitmaps and the root directory are looked up where it says they are. The
image is consistent exactly if the layout fits (`consistent_imageOf_iff`), which is a matter of the
number of blocks (`run_consistent_iff`).
-/

namespace GoPosix.MkfsMinix

open Slice Bytes Binary Output List UInt16

/-! ## Reading an image -/

def block (image : Bytes) (k : Nat) : Bytes := (image.drop (k * 1024)).take 1024

def readSuperBlock (image : Bytes) : MinixSuperBlock :=
  let s := image.drop 1024
  { nInodes := ofNat (leAt s 2 0)
    nZones := ofNat (leAt s 2 2)
    iMapBlocks := ofNat (leAt s 2 4)
    zMapBlocks := ofNat (leAt s 2 6)
    firstDataZone := ofNat (leAt s 2 8)
    logZoneSize := ofNat (leAt s 2 10)
    maxSize := UInt32.ofNat (leAt s 4 12)
    magic := ofNat (leAt s 2 16)
    state := ofNat (leAt s 2 18) }

def MinixSuperBlock.nameLength (sb : MinixSuperBlock) : Nat := if sb.magic = 0x137F then 14 else 30

/-- The blocks of a table of `n` inodes of 32 bytes. -/
def tableBlocks (n : Nat) : Nat := (n * 32 + 1023) / 1024

/-- A directory entry: the inode, and the name padded with zeros. -/
def dirEntry (namelen inode : Nat) (name : Bytes) : Bytes :=
  le 2 inode ++ name ++ List.replicate (namelen - name.length) 0

def rootDirectory (namelen : Nat) : Bytes :=
  dirEntry namelen 1 (str ".") ++ dirEntry namelen 1 (str "..") ++
    dirEntry namelen 0 (str ".badblocks") ++ List.replicate (1024 - 3 * (namelen + 2)) 0

/-- **A consistent image.** Inode `i` has bit `i` of its bitmap and zone `z` has bit
`z - firstDataZone + 1`; a clear bit means that the inode or zone exists and is free. Inode 1 and
the first data zone are in use by the root directory. -/
structure Consistent (blocks : Nat) (image : Bytes) : Prop where
  size : image.length = blocks * 1024
  first : (readSuperBlock image).firstDataZone.toNat = 2 + (readSuperBlock image).iMapBlocks.toNat +
    (readSuperBlock image).zMapBlocks.toNat + tableBlocks (readSuperBlock image).nInodes.toNat
  root : block image (readSuperBlock image).firstDataZone.toNat =
    rootDirectory (readSuperBlock image).nameLength
  room : blocks - (readSuperBlock image).firstDataZone.toNat <
    8192 * (readSuperBlock image).zMapBlocks.toNat
  inodes : ∀ i < 8192 * (readSuperBlock image).iMapBlocks.toNat,
    bit (image.drop (2 * 1024)) i = false ↔ 2 ≤ i ∧ i ≤ (readSuperBlock image).nInodes.toNat
  zones : ∀ j < 8192 * (readSuperBlock image).zMapBlocks.toNat,
    bit (image.drop ((2 + (readSuperBlock image).iMapBlocks.toNat) * 1024)) j = false ↔
      2 ≤ j ∧ j ≤ blocks - (readSuperBlock image).firstDataZone.toNat

theorem readSuperBlock_append (hb : boot.length = 1024) (sb : MinixSuperBlock)
    (rest : Bytes) : readSuperBlock (boot ++ (sb.bytes ++ rest)) = sb := by
  have hl : ∀ v : UInt16, UInt16.ofNat (ofLe (le 2 v.toNat)) = v := fun v => by
    rw [ofLe_le v.toNat_lt, UInt16.ofNat_toNat]
  have hl4 : ∀ v : UInt32, UInt32.ofNat (ofLe (le 4 v.toNat)) = v := fun v => by
    rw [ofLe_le v.toNat_lt, UInt32.ofNat_toNat]
  obtain ⟨ni, nz, i, zm, first, ls, ms, m, s⟩ := sb
  rw [readSuperBlock, ← hb, drop_left]
  exact congr (congr (congr (congr (congr (congr (congr (congr (congrArg _ (hl ni))
    (hl nz)) (hl i)) (hl zm)) (hl first)) (hl ls)) (hl4 ms))
    (hl m)) (hl s)

theorem rootBlock_eq :
    rootBlock 14 = .ok (rootDirectory 14) ∧ rootBlock 30 = .ok (rootDirectory 30) :=
  ⟨by decide +kernel, by decide +kernel⟩

/-! ## The bitmaps -/

theorem bit_full (hj : j < 8192 * k) : bit (List.replicate (k * 1024) 0xff) j = true := by
  have hb : j / 8 < k * 1024 := by omega
  have hall : ∀ b < 8, (0xff : UInt8).toBitVec.getLsbD b = true := by decide
  rw [bit, getD_eq_getElem?_getD, List.getElem?_replicate_of_lt hb]
  exact hall _ (Nat.mod_lt _ (by decide))

theorem full_natCast (k : Nat) : full (k : Int) = .ok (List.replicate (k * 1024) 0xff) := by
  have hm := make_natCast (k * 1024)
  push_cast at hm
  simp only [full, hm, bind, Except.bind, map_replicate]

/-- The clear bits of a bitmap in which the bits `1`, …, `n` were cleared and bit 1 was set. -/
theorem bitmap_ok {lo hi : Int} {k n : Nat} (hk : 1 ≤ k)
    (hbo : ∀ (i : Nat) buf, lo + i < hi → bo (lo + i) buf = clearBit buf ((i + 1 : Nat) : Int))
    (hn : (hi - lo).toNat = n) (hf : n < 8192 * k) :
    ∃ buf, (do
      let buf ← full k
      let buf ← forRange lo hi bo buf
      setBit buf 1) = .ok buf ∧ buf.length = k * 1024 ∧
      ∀ j < 8192 * k, bit buf j = false ↔ 2 ≤ j ∧ j ≤ n := by
  have hbuf : n < 8 * (List.replicate (k * 1024) (0xff : UInt8)).length := by
    rw [length_replicate]
    omega
  obtain ⟨buf, hl, hlen, hb⟩ := forRange_clearBit hbo hn hbuf
  rw [length_replicate] at hlen
  obtain ⟨buf', hs, hlen', hb'⟩ := @setBit_ok buf 1 (by omega)
  refine ⟨buf', ?_, hlen'.trans hlen, fun j hj => ?_⟩
  · simp only [full_natCast, bind, Except.bind, hl]
    exact hs
  rw [hb', hb, bit_full hj]
  by_cases h1 : j = 1
  · simp [h1]
  rw [if_neg h1]
  by_cases hr : 1 ≤ j ∧ j ≤ n
  · rw [if_pos hr]
    simp only [true_iff]
    omega
  · rw [if_neg hr]
    simp only [Bool.true_eq_false, false_iff]
    omega

/-! ## The writes -/

def zeroBlock : Bytes := List.replicate 1024 0

def imageOf (sb : MinixSuperBlock) (imap zmap table root : Bytes) (free : Nat) : Bytes :=
  zeroBlock ++ ((sb.bytes ++ List.replicate 1004 0) ++ (imap ++ (zmap ++ (table ++ (root ++
    (List.replicate free zeroBlock).flatten)))))

theorem length_zeroBlock : zeroBlock.length = 1024 := length_replicate

theorem length_bytes (sb : MinixSuperBlock) : sb.bytes.length = 20 := rfl

section

variable {b n im z f : Nat}

theorem inodeBitmap_ok (hn : 1 ≤ n ∧ n < 8192 * im) :
    ∃ imap, inodeBitmap ⟨b, n, im, z, f⟩ = .ok imap ∧ imap.length = im * 1024 ∧
      ∀ i < 8192 * im, bit imap i = false ↔ 2 ≤ i ∧ i ≤ n := by
  apply bitmap_ok (by omega)
  · intro i buf _
    rw [Nat.cast_succ, add_comm]
  · simp
  · exact hn.2

theorem zoneBitmap_ok (hf : f < b) (hz : b - f < 8192 * z) :
    ∃ zm, zoneBitmap ⟨b, n, im, z, f⟩ = .ok zm ∧ zm.length = z * 1024 ∧
      ∀ j < 8192 * z, bit zm j = false ↔ 2 ≤ j ∧ j ≤ b - f := by
  apply bitmap_ok (by omega)
  · intro i buf _
    congr 1
    omega
  · simp only
    omega
  · exact hz

theorem inodeTable_ok (hn : 1 ≤ n) (na : Int) :
    ∃ table, inodeTable ⟨b, n, im, z, f⟩ na = .ok table ∧ table.length = tableBlocks n * 1024 := by
  have hs : inodeBlocksFor n * 1024 = ((tableBlocks n * 1024 : Nat) : Int) := by
    rw [inodeBlocksFor, Int.tdiv_eq_ediv_of_nonneg (by omega), tableBlocks]
    omega
  have ht : 1024 ≤ tableBlocks n * 1024 := by
    unfold tableBlocks
    omega
  have hi : (rootInode ⟨b, n, im, z, f⟩ na).bytes.length = 32 := rfl
  have hc := @copyAt_append [] (List.replicate (tableBlocks n * 1024) 0)
    (rootInode ⟨b, n, im, z, f⟩ na).bytes 0 32 rfl (by rw [hi]; decide)
    (by rw [length_replicate]; omega)
  have ht' : inodeTable ⟨b, n, im, z, f⟩ na = copyAt (List.replicate (tableBlocks n * 1024) 0)
      0 32 (rootInode ⟨b, n, im, z, f⟩ na).bytes := by
    simp only [inodeTable, hs, make_natCast, bind, Except.bind]
  refine ⟨_, ht'.trans hc, ?_⟩
  rw [nil_append, length_append, length_drop, length_replicate]
  omega

/-- **What is written.** -/
theorem writeImage_writes (hnamelen : namelen = 14 ∨ namelen = 30)
    (hn : 1 ≤ n ∧ n < 8192 * im) (hf : f < b) (hz : b - f < 8192 * z) :
    ∃ imap zm table, imap.length = im * 1024 ∧ zm.length = z * 1024 ∧
      table.length = tableBlocks n * 1024 ∧ (∀ i < 8192 * im, bit imap i = false ↔ 2 ≤ i ∧ i ≤ n) ∧
      (∀ j < 8192 * z, bit zm j = false ↔ 2 ≤ j ∧ j ≤ b - f) ∧
        Writes (writeImage ⟨b, n, im, z, f⟩ namelen)
        (imageOf (superBlock ⟨b, n, im, z, f⟩ namelen) imap zm table
          (rootDirectory namelen.toNat) (b - f - 1)) () := by
  obtain ⟨imap, hima, him, hi⟩ := @inodeBitmap_ok b n im z f hn
  obtain ⟨zm, hzmap, hzma, hzm⟩ := @zoneBitmap_ok b n im z f hf hz
  obtain ⟨table, htable, ht⟩ := @inodeTable_ok b n im z f hn.1 namelen
  refine ⟨imap, zm, table, him, hzma, ht, hi, hzm, ?_⟩
  have hm : make 1024 = .ok zeroBlock := make_natCast 1024
  have hsb : copyAt zeroBlock 0 1024 (superBlock ⟨b, n, im, z, f⟩ namelen).bytes =
      .ok ((superBlock ⟨b, n, im, z, f⟩ namelen).bytes ++ List.replicate 1004 0) := by
    have hc := @copyAt_append [] zeroBlock (superBlock ⟨b, n, im, z, f⟩ namelen).bytes 0 1024 rfl
      (by rw [length_bytes]; decide) (by rw [length_zeroBlock]; decide)
    exact hc
  have hr : rootBlock namelen = .ok (rootDirectory namelen.toNat) := by
    rcases hnamelen with rfl | rfl
    · exact rootBlock_eq.1
    · exact rootBlock_eq.2
  have hfree : ((b : Int) - f - 1).toNat = b - f - 1 := by omega
  refine Writes.exec_bind hm (.bind (.write _) ?_)
  refine Writes.exec_bind hm (.exec_bind hsb (.bind (.write _) ?_))
  refine Writes.exec_bind hima (.bind (.write _) ?_)
  refine Writes.exec_bind hzmap (.bind (.write _) ?_)
  refine Writes.exec_bind htable (.bind (.write _) ?_)
  refine Writes.exec_bind hr (.bind (.write _) ?_)
  simp only [hfree]
  exact Writes.times zeroBlock _

/-! ## Consistency -/

theorem bit_append (hi : i < 8 * s.length) (t : Bytes) : bit (s ++ t) i = bit s i := by
  have hb : i / 8 < s.length := by omega
  simp only [bit, getD_eq_getElem?_getD, List.getElem?_append_left hb]

theorem length_flatten_zeroBlock (n : Nat) :
    (List.replicate n zeroBlock).flatten.length = n * 1024 := by
  rw [length_flatten, map_replicate, sum_replicate_nat, length_zeroBlock]

/-- **An image with the right sections is consistent exactly if its first data zone is where the
root directory comes to stand.** -/
theorem consistent_imageOf_iff (hn : sb.nInodes.toNat = n) (him : sb.iMapBlocks.toNat = im)
    (hz : sb.zMapBlocks.toNat = z) (hf : sb.firstDataZone.toNat = f)
    (hroot : (rootDirectory sb.nameLength).length = 1024)
    (himap : imap.length = im * 1024) (hzm : zm.length = z * 1024)
    (ht : table.length = tableBlocks n * 1024)
    (hin : ∀ i < 8192 * im, bit imap i = false ↔ 2 ≤ i ∧ i ≤ n)
    (hzones : ∀ j < 8192 * z, bit zm j = false ↔ 2 ≤ j ∧ j ≤ b - f)
    (hfb : f < b) (hr : b - f < 8192 * z) :
    Consistent b (imageOf sb imap zm table (rootDirectory sb.nameLength) (b - f - 1)) ↔
      f = 2 + im + z + tableBlocks n := by
  generalize hima :
    imageOf sb imap zm table (rootDirectory sb.nameLength) (b - f - 1) = ima
  have hsb : readSuperBlock ima = sb := by
    rw [← hima, imageOf]
    exact readSuperBlock_append length_zeroBlock sb _
  -- the image, cut before the inode bitmap, before the zone bitmap and before the root directory
  obtain ⟨head, hh, hima'⟩ : ∃ head, head.length = 2 * 1024 ∧ ima = head ++ (imap ++ (zm ++
      (table ++ (rootDirectory sb.nameLength ++
        (List.replicate (b - f - 1) zeroBlock).flatten)))) := by
    refine ⟨zeroBlock ++ (sb.bytes ++ List.replicate 1004 0), ?_, ?_⟩
    · rw [length_append, length_append, length_zeroBlock, length_bytes, length_replicate]
    · rw [← hima, imageOf, ← append_assoc zeroBlock]
  have hc₁ : ima.drop (2 * 1024) = imap ++ (zm ++
      (table ++ (rootDirectory sb.nameLength ++
        (List.replicate (b - f - 1) zeroBlock).flatten))) := by
    rw [hima', ← hh, drop_left]
  have hc₂ : ima.drop ((2 + im) * 1024) = zm ++
      (table ++ (rootDirectory sb.nameLength ++
        (List.replicate (b - f - 1) zeroBlock).flatten)) := by
    rw [Nat.add_mul, ← drop_drop, hc₁, ← himap, drop_left]
  have hc₃ : ima.drop ((2 + im + z + tableBlocks n) * 1024) =
      rootDirectory sb.nameLength ++ (List.replicate (b - f - 1) zeroBlock).flatten := by
    rw [Nat.add_mul, Nat.add_mul (2 + im), ← drop_drop, ← drop_drop, hc₂, ← hzm, drop_left, ← ht,
      drop_left]
  constructor
  · intro h
    have hfirst := h.first
    rwa [hsb, hn, him, hz, hf] at hfirst
  · intro hfits
    refine ⟨?_, ?_, ?_, ?_, ?_, ?_⟩
    · rw [hima']
      simp only [length_append, hh, himap, length_flatten_zeroBlock]
      omega
    · rw [hsb, hn, him, hz, hf]
      exact hfits
    · rw [hsb, hf, block, hfits, hc₃, ← hroot, take_left]
    · rw [hsb, hf, hz]
      exact hr
    · intro i hi
      rw [hsb, him] at hi
      rw [hsb, hn, hc₁, bit_append (by omega)]
      exact hin i hi
    · intro j hj
      rw [hsb, hz] at hj
      rw [hsb, him, hf, hc₂, bit_append (by omega)]
      exact hzones j hj

end

/-! ## The command -/

theorem toNat_ofInt {n : Nat} (h : n ≤ 65535) : (ofInt (n : Int)).toNat = n := by
  rw [ofInt, toNat_ofNat']
  omega

/-- `Run` on a file system with room for a data zone writes one image, which is consistent unless
the blocks for the zone bitmap and the data zones are a multiple of 8193. -/
theorem writeImage_layoutFor {bl i na : Int} (hbl : 10 ≤ bl ∧ bl ≤ 65535)
    (hr : (layoutFor bl i).firstDataZone < bl) (hna : na = 14 ∨ na = 30) :
    ∃ image, Writes (writeImage (layoutFor bl i) na) image () ∧
      (Consistent bl.toNat image ↔ ¬ (8193 : Int) ∣ bl - baseBlocks bl i) := by
  obtain ⟨hu, hfits⟩ := layoutFor_spec hbl hr
  obtain ⟨b, n, im, z, f, hl, hb, hn, hm, hf, hz⟩ := hu.exists_nat
  have hbl' : bl.toNat = b := by
    rw [show bl = (layoutFor bl i).blocks from rfl, hl]
    rfl
  obtain ⟨imap, zm, table, him, hzm, ht, hi, hzb, hw⟩ := writeImage_writes hna ⟨hn.1, hn.2.2⟩ hf hz
  have hna' : (superBlock ⟨b, n, im, z, f⟩ na).nameLength = na.toNat := by
    rcases hna with rfl | rfl <;> rfl
  have hlen : (rootDirectory (superBlock ⟨b, n, im, z, f⟩ na).nameLength).length = 1024 := by
    rw [hna']
    rcases hna with rfl | rfl <;> decide +kernel
  rw [← hfits, hl, hbl', Layout.Fits]
  rw [← hna'] at hw
  refine ⟨_, hw, ?_⟩
  rw [consistent_imageOf_iff (toNat_ofInt hn.2.1) (toNat_ofInt (by omega)) (toNat_ofInt (by omega))
    (toNat_ofInt (by omega)) hlen him hzm ht hi hzb hf hz]
  simp only [inodeBlocksFor, Int.tdiv_eq_ediv_of_nonneg (show (0 : Int) ≤ n * 32 + 1023 by omega),
    tableBlocks]
  omega

/-- On a writer that takes everything, `Run` succeeds if there is room for a data zone. -/
theorem run_succeeds {blocks i na : Int} {w : Writer} (hw : ∀ n, w.faults n = none)
    (hb : 10 ≤ blocks ∧ blocks ≤ 65535) (hn : na = 14 ∨ na = 30)
    (hr : (layoutFor blocks i).firstDataZone < blocks) :
    ∃ w', run blocks i na w = .ok ((resultOf (layoutFor blocks i), none), w') ∧
      ∃ image, w'.written = w.written ++ image ∧
        (Consistent blocks.toNat image ↔ ¬ (8193 : Int) ∣ blocks - baseBlocks blocks i) := by
  obtain ⟨image, hwri, hi⟩ := writeImage_layoutFor hb hr hn
  obtain ⟨w', hrun, hwritten⟩ := hwri.complete hw
  refine ⟨w', ?_, image, hwritten, hi⟩
  rw [run, if_neg (by omega)]
  simp only [if_neg (show ¬ (na ≠ 14 ∧ na ≠ 30) by omega),
    if_neg (show ¬ (layoutFor blocks i).firstDataZone ≥ blocks by omega), hrun]

/-- **When the image is consistent**, for any run that succeeds: the blocks that are left for the
zone bitmap and the data zones are not a multiple of 8193. -/
theorem run_consistent_iff {blocks inodes namelen : Int} {w w' : Writer} {res : MkfsResult}
    (hblocks : blocks ≤ 65535)
    (hrun : run blocks inodes namelen w = .ok ((res, none), w')) :
    ∃ image, w'.written = w.written ++ image ∧
      (Consistent blocks.toNat image ↔ ¬ (8193 : Int) ∣ blocks - baseBlocks blocks inodes) := by
  unfold run at hrun
  by_cases hm : blocks < 10
  · rw [if_pos hm] at hrun
    cases hrun
  rw [if_neg hm] at hrun
  generalize hn : (if namelen ≠ 14 ∧ namelen ≠ 30 then 30 else namelen) = namelen' at hrun
  have hn' : namelen' = 14 ∨ namelen' = 30 := by
    rw [← hn]
    split_ifs <;> omega
  by_cases hr : (layoutFor blocks inodes).firstDataZone ≥ blocks
  · simp only [if_pos hr] at hrun
    cases hrun
  simp only [if_neg hr] at hrun
  obtain ⟨image, hw, hi⟩ := writeImage_layoutFor ⟨not_lt.mp hm, hblocks⟩
    (not_le.mp hr) hn'
  refine ⟨image, ?_, hi⟩
  cases ho : writeImage (layoutFor blocks inodes) namelen' w with
  | error fault =>
    rw [ho] at hrun
    cases hrun
  | ok out =>
    obtain ⟨_ | _, w₁⟩ := out
    · rw [ho] at hrun
      cases hrun
    · rw [ho] at hrun
      cases hrun
      exact (hw.written ho).2

theorem run_consistent_ten :
    ∃ res w', run 10 0 30 {} = .ok ((res, none), w') ∧ Consistent 10 w'.written := by
  obtain ⟨w', hr, -⟩ := @run_succeeds 10 0 30 {} (fun _ => rfl) (by decide) (by decide)
    (by decide)
  obtain ⟨image, hw, hi⟩ := run_consistent_iff (by decide) hr
  refine ⟨_, w', hr, ?_⟩
  rw [hw]
  exact hi.mpr (by decide)

/-- With 8197 blocks and 32 inodes 8193 are left: the loop swings between one and two bitmap blocks,
and ends with one bitmap block and the first data zone for two. -/
theorem run_inconsistent_swing : ∃ w',
    run 8197 32 30 {} = .ok ((⟨32, 8197, 6, 1, 1⟩, none), w') ∧ ¬ Consistent 8197 w'.written := by
  obtain ⟨w', hr, image, hw, hi⟩ :=
    @run_succeeds 8197 32 30 {} (fun _ => rfl) (by decide) (by decide) (by decide +kernel)
  have hresult : resultOf (layoutFor 8197 32) = ⟨32, 8197, 6, 1, 1⟩ := by decide +kernel
  rw [hresult] at hr
  refine ⟨w', hr, ?_⟩
  rw [hw]
  exact mt hi.mp (not_not.mpr (by decide))

end GoPosix.MkfsMinix

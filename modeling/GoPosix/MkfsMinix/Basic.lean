import GoPosix.Lib.Binary
import GoPosix.Lib.Output

/-!
# `mkfs.minix`

`Run` of `pkg/mkfs_minix`: the layout of the file system, the blocks in the order in which they are
written, and the result. Everything is a block of 1024 bytes or a number of them: boot block,
superblock, inode bitmap, zone bitmap, inode table, root directory, free zones. The size of the zone
bitmap and the first data zone depend on each other: `Run` looks for a pair that fits by iteration
(`zmapLoop`), for at most 1000 turns.
-/

namespace GoPosix.MkfsMinix

open Slice MachineInt Bytes Binary Output

/-! ## Records -/

structure MkfsResult where
  inodes : UInt16 := 0
  zones : UInt16 := 0
  firstDataZone : UInt16 := 0
  imapBlocks : UInt16 := 0
  zmapBlocks : UInt16 := 0
  deriving DecidableEq, Repr

structure MinixSuperBlock where
  nInodes : UInt16
  nZones : UInt16
  iMapBlocks : UInt16
  zMapBlocks : UInt16
  firstDataZone : UInt16
  logZoneSize : UInt16
  maxSize : UInt32
  magic : UInt16
  state : UInt16
  deriving DecidableEq, Repr

structure MinixInode where
  mode : UInt16
  uid : UInt16
  size : UInt32
  time : UInt32
  gid : UInt8
  nLinks : UInt8
  zones : List UInt16
  deriving DecidableEq, Repr

/-- `binary.Write` of a superblock, in little-endian order. -/
def MinixSuperBlock.bytes (sb : MinixSuperBlock) : Bytes :=
  le 2 sb.nInodes.toNat ++ le 2 sb.nZones.toNat ++ le 2 sb.iMapBlocks.toNat ++
    le 2 sb.zMapBlocks.toNat ++ le 2 sb.firstDataZone.toNat ++ le 2 sb.logZoneSize.toNat ++
    le 4 sb.maxSize.toNat ++ le 2 sb.magic.toNat ++ le 2 sb.state.toNat

def MinixInode.bytes (inode : MinixInode) : Bytes :=
  le 2 inode.mode.toNat ++ le 2 inode.uid.toNat ++ le 4 inode.size.toNat ++
    le 4 inode.time.toNat ++ [inode.gid, inode.nLinks] ++
    (inode.zones.map fun z => le 2 z.toNat).flatten

/-! ## The layout -/

/-- The number of inodes: by default a third of the blocks, rounded up to fill a block, from 16 to
65535. -/
def roundInodes (blocks inodes : Int) : Int :=
  let inodes := if inodes ≤ 0 then blocks.tdiv 3 else inodes
  let inodes := wrap64 (inodes + 31) / 32 * 32
  let inodes := if inodes < 16 then 16 else inodes
  if inodes > 65535 then 65535 else inodes

def imapBlocksFor (inodes : Int) : Int := (inodes + 1 + 8191).tdiv 8192

def inodeBlocksFor (inodes : Int) : Int := (inodes * 32 + 1023).tdiv 1024

/-- `sb_zmaps`: the blocks the zone bitmap needs for the zones from `firstDataZone` on. -/
def sbZmaps (blocks firstDataZone : Int) : Int :=
  (wrap64 (blocks - firstDataZone + 1 + 8191)).tdiv 8192

/-- The loop that computes `zmapBlocks` and `firstDataZone`, for `n` more turns. -/
def zmapLoop (blocks imapBlocks inodeBlocks : Int) : (n : Nat) → Int × Int → Int × Int
  | 0, found => found
  | n + 1, (zmapBlocks, _) =>
    let firstDataZone := 2 + imapBlocks + zmapBlocks + inodeBlocks
    if zmapBlocks = sbZmaps blocks firstDataZone then (zmapBlocks, firstDataZone)
    else zmapLoop blocks imapBlocks inodeBlocks n (sbZmaps blocks firstDataZone, firstDataZone)

/-- The numbers `Run` computes before it writes anything. -/
structure Layout where
  blocks : Int
  inodes : Int
  imapBlocks : Int
  zmapBlocks : Int
  firstDataZone : Int
  deriving DecidableEq, Repr

def layoutFor (blocks inodes : Int) : Layout :=
  let inodes := roundInodes blocks inodes
  let imapBlocks := imapBlocksFor inodes
  let found := zmapLoop blocks imapBlocks (inodeBlocksFor inodes) 1000 (0, 0)
  ⟨blocks, inodes, imapBlocks, found.1, found.2⟩

/-! ## The blocks -/

def superBlock (l : Layout) (namelen : Int) : MinixSuperBlock where
  nInodes := UInt16.ofInt l.inodes
  nZones := UInt16.ofInt l.blocks
  iMapBlocks := UInt16.ofInt l.imapBlocks
  zMapBlocks := UInt16.ofInt l.zmapBlocks
  firstDataZone := UInt16.ofInt l.firstDataZone
  logZoneSize := 0
  maxSize := (7 + 512 + 512 * 512) * 1024
  magic := if namelen = 14 then 0x137F else 0x138F
  state := 1

def full (blocks : Int) : Exec Bytes := do
  let buf ← make (blocks * 1024)
  .ok (buf.map fun _ => 0xff)

/-- The inode bitmap: the bits of all inodes are cleared, and that of the root is set again. -/
def inodeBitmap (l : Layout) : Exec Bytes := do
  let imap ← full l.imapBlocks
  let imap ← forRange 1 (l.inodes + 1) (fun i imap => clearBit imap i) imap
  setBit imap 1

/-- The zone bitmap, in the same way: bit 1 stands for the first data zone. -/
def zoneBitmap (l : Layout) : Exec Bytes := do
  let zmap ← full l.zmapBlocks
  let zmap ← forRange l.firstDataZone l.blocks
    (fun i zmap => clearBit zmap (i - l.firstDataZone + 1)) zmap
  setBit zmap 1

def rootInode (l : Layout) (namelen : Int) : MinixInode where
  mode := 0o40755
  uid := 0
  size := UInt32.ofInt (2 * (namelen + 2))
  time := 0
  gid := 0
  nLinks := 2
  zones := UInt16.ofInt l.firstDataZone :: List.replicate 8 0

def inodeTable (l : Layout) (namelen : Int) : Exec Bytes := do
  let table ← make (inodeBlocksFor l.inodes * 1024)
  copyAt table 0 32 (rootInode l namelen).bytes

/-- The root directory: `.`, `..`, and `.badblocks` with no inode. -/
def rootBlock (namelen : Int) : Exec Bytes := do
  let size := namelen + 2
  let block ← make 1024
  let block ← copyAt block 0 2 (le 2 1)
  let block ← copyAt block 2 (2 + namelen) (str ".")
  let block ← copyAt block size (size + 2) (le 2 1)
  let block ← copyAt block (size + 2) (size + 2 + namelen) (str "..")
  let block ← copyAt block (2 * size) (2 * size + 2) (le 2 0)
  copyAt block (2 * size + 2) (2 * size + 2 + namelen) (str ".badblocks")

/-- The part of `Run` that writes. -/
def writeImage (l : Layout) (namelen : Int) : Output Unit := do
  let bootBlock ← exec (make 1024)
  write bootBlock
  let sbBlock ← exec (make 1024)
  let sbBlock ← exec (copyAt sbBlock 0 1024 (superBlock l namelen).bytes)
  write sbBlock
  let imap ← exec (inodeBitmap l)
  write imap
  let zmap ← exec (zoneBitmap l)
  write zmap
  let table ← exec (inodeTable l namelen)
  write table
  let root ← exec (rootBlock namelen)
  write root
  let zeroBlock ← exec (make 1024)
  times (write zeroBlock) (l.blocks - l.firstDataZone - 1).toNat

def resultOf (l : Layout) : MkfsResult where
  inodes := UInt16.ofInt l.inodes
  zones := UInt16.ofInt l.blocks
  firstDataZone := UInt16.ofInt l.firstDataZone
  imapBlocks := UInt16.ofInt l.imapBlocks
  zmapBlocks := UInt16.ofInt l.zmapBlocks

/-- `Run`: the result and the text of an error or none, and the writer it leaves. -/
def run (blocks inodes namelen : Int) (w : Writer) : Exec ((MkfsResult × Option Bytes) × Writer) :=
  if blocks < 10 then .ok (({}, some (str "number of blocks must be at least 10")), w)
  else
    let namelen := if namelen ≠ 14 ∧ namelen ≠ 30 then 30 else namelen
    let l := layoutFor blocks inodes
    if l.firstDataZone ≥ blocks then
      .ok (({}, some (str "filesystem too small for requested metadata")), w)
    else match writeImage l namelen w with
      | .error fault => .error fault
      | .ok (.error e, w') => .ok ((resultOf l, some e), w')
      | .ok (.ok (), w') => .ok ((resultOf l, none), w')

end GoPosix.MkfsMinix

import ForestDB.Superblock.Header
import ForestDB.Superblock.Recovery

/-!
Commits and crashes (`_fdb_commit`, `filemgr_commit_bid`, `filemgr_open`).

A commit writes the superblock first and the header it names after that. A crash between the two
leaves a superblock whose header is missing. When the file is opened again, a superblock is taken
only if the header that is found for it has the revision it names; otherwise the next older
superblock is tried.
-/

namespace ForestDB.Sb

open Bytes

/-! ### Opening a file -/

/-- What opening a file comes to: the superblock and the header with its block, if there are
any. -/
inductive Opened where
  | opened (sb : Option Superblock) (hdr : Option (DbHeader × Nat))
  | failed (status : HdrStatus)
  | overrun
  deriving DecidableEq, Repr

/-- The loop of `filemgr_open`: repeat until superblock and header belong together. A file
without superblocks is of an old version. Each round gives up one superblock. -/
def openLoop (cfg : FileConfig) (numSb : Nat) (blocks : Nat → List UInt8) (size : Nat) :
    Nat → Option Superblock → Opened
  | 0, _ => .failed .noDbHeaders
  | fuel + 1, current =>
    match sbReadLatest cfg numSb blocks current with
    | .overrun => .overrun
    | .readFail =>
      match readHeader cfg numSb blocks size none with
      | .overrun => .overrun
      | .found hdr bid => .opened none (some (hdr, bid))
      | .missing none => .opened none none
      | .missing (some status) => .failed status
    | .loaded sb _ =>
      match readHeader cfg numSb blocks size (some sb) with
      | .overrun => .overrun
      | .found hdr bid =>
        if hdr.revnum ≠ sb.lastHdrRevnum then openLoop cfg numSb blocks size fuel (some sb)
        else .opened (some sb) (some (hdr, bid))
      | .missing status =>
        -- a file may have superblocks and no header yet
        if status = none ∨ status = some .noDbHeaders then
          if 0 ≠ sb.lastHdrRevnum then openLoop cfg numSb blocks size fuel (some sb)
          else .opened (some sb) none
        else .failed (status.getD .noDbHeaders)

def filemgrOpen (cfg : FileConfig) (numSb : Nat) (blocks : Nat → List UInt8) (size : Nat) : Opened :=
  openLoop cfg numSb blocks size (numSb + 1) none

/-! ### Commits -/

/-- A commit that is on disk: its superblock and its header. A new file has a superblock and no
header. -/
structure Committed where
  sb : Superblock
  hdr : Option (DbHeader × Nat)

/-- The header revision of a commit, zero if there is none. -/
def Committed.revnum (last : Committed) : Nat :=
  match last.hdr with
  | none => 0
  | some (hdr, _) => hdr.revnum

/-- A file that is open: its blocks and its size in bytes, the superblock in memory, whose revision
is the one that is written next, and the revision and the block of the header in memory. `last`
is the last commit. -/
structure Db where
  blocks : Nat → List UInt8
  size : Nat
  sb : Superblock
  hdrRevnum : Nat
  hdrBid : Nat
  last : Committed

/-- What a commit is given: the blocks of documents and index nodes that reach the disk, the
superblock with the bitmaps as they are by then, the block for the header, the header data, and
the size of the file afterwards. -/
structure CommitInput where
  writes : List (Nat × List UInt8)
  sb : Superblock
  lastWritableBmpRevnum : Nat
  bid : Nat
  data : List UInt8
  seqnum : Nat
  filler : List UInt8
  curBmpRevnum : Nat
  deltasize : Nat
  size : Nat

/-- `sb_update_header` -/
def sbUpdateHeader (sb : Superblock) (lastHdrBid curHeaderRevnum lastWritableBmpRevnum : Nat) :
    Superblock :=
  if sb.lastHdrBid ≠ lastHdrBid ∧ sb.lastHdrRevnum < curHeaderRevnum then
    { sb with
      lastHdrBid := lastHdrBid
      lastHdrRevnum := curHeaderRevnum
      bmpPrev := if lastWritableBmpRevnum = sb.bmpRevnum then [] else sb.bmpPrev }
  else sb

def writeBlocks (blocks : Nat → List UInt8) (writes : List (Nat × List UInt8)) :
    Nat → List UInt8 :=
  writes.foldl (fun blocks w => Function.update blocks w.1 w.2) blocks

namespace Db

variable (db : Db) (c : CommitInput)

/-- The revision of the header that is written. -/
def nextRevnum : Nat := db.hdrRevnum + 1

/-- The superblock that is written: the bitmaps are those of `c`, the ring position and the last
header come from the superblock in memory. -/
def commitSb : Superblock :=
  sbUpdateHeader
    { c.sb with
      revnum := db.sb.revnum
      lastHdrBid := db.sb.lastHdrBid
      lastHdrRevnum := db.sb.lastHdrRevnum }
    c.bid db.nextRevnum c.lastWritableBmpRevnum

def commitHeader : DbHeader where
  data := c.data
  revnum := db.nextRevnum
  seqnum := c.seqnum

def commitTail : HeaderTail where
  filler := c.filler
  bmpRevnum := c.curBmpRevnum
  deltasize := c.deltasize
  prevBid := db.hdrBid

/-- The commit, once its header is on disk. -/
def committed : Committed where
  sb := db.commitSb c
  hdr := some (db.commitHeader c, c.bid)

end Db

/-- Where a crash interrupts a commit. -/
inductive CrashPoint where
  | beforeSb
  /-- The superblock write leaves `content` in its slot. -/
  | insideSb (content : List UInt8)
  | beforeHeader
  /-- The header write leaves `content` in its block. -/
  | insideHeader (content : List UInt8)
  | afterHeader

namespace Db

variable (cfg : FileConfig) (numSb : Nat) (db : Db) (c : CommitInput)

/-- The blocks with the new superblock. -/
def sbWritten : Nat → List UInt8 :=
  Function.update (writeBlocks db.blocks c.writes) (db.sb.revnum % numSb)
    (sbImage cfg (db.commitSb c))

/-- The blocks that a crash leaves. -/
def diskAt : CrashPoint → Nat → List UInt8
  | .beforeSb => writeBlocks db.blocks c.writes
  | .insideSb content =>
    Function.update (writeBlocks db.blocks c.writes) (db.sb.revnum % numSb) content
  | .beforeHeader => db.sbWritten cfg numSb c
  | .insideHeader content => Function.update (db.sbWritten cfg numSb c) c.bid content
  | .afterHeader =>
    Function.update (db.sbWritten cfg numSb c) c.bid
      (headerImage cfg (db.commitHeader c) (db.commitTail c))

/-- The commit that counts after a crash. -/
def lastAt : CrashPoint → Committed
  | .afterHeader => db.committed c
  | _ => db.last

/-- `_fdb_commit` from the allocation of the header block on. The revision of the header in memory
is counted once more at the end. -/
def commit : Db where
  blocks := db.diskAt cfg numSb c .afterHeader
  size := c.size
  sb := { db.commitSb c with revnum := db.sb.revnum + 1 }
  hdrRevnum := db.nextRevnum + 1
  hdrBid := c.bid
  last := db.committed c

/-- The file that is opened after a crash. -/
def reopened (p : CrashPoint) (sb : Superblock) (hdr : Option (DbHeader × Nat)) : Db where
  blocks := db.diskAt cfg numSb c p
  size := c.size
  sb := sb
  hdrRevnum := (hdr.map fun h => h.1.revnum).getD 0
  hdrBid := (hdr.map Prod.snd).getD 0
  last := db.lastAt c p

end Db

inductive DbEvent where
  | commit (c : CommitInput)
  | crash (p : CrashPoint) (c : CommitInput)

/-- A run ends where the file cannot be opened. -/
def Db.step (cfg : FileConfig) (numSb : Nat) (db : Db) : DbEvent → Option (Db × Unit)
  | .commit c => some (db.commit cfg numSb c, ())
  | .crash p c =>
    match filemgrOpen cfg numSb (db.diskAt cfg numSb c p) c.size with
    | .opened (some sb) hdr => some (db.reopened cfg numSb c p sb hdr, ())
    | _ => none

/-- A new file: every slot holds a superblock and there is nothing else. -/
def Db.new (cfg : FileConfig) (numSb : Nat) : Db where
  blocks := (Ring.init cfg numSb numSb).slots
  size := numSb * cfg.blocksize
  sb := { sbInit with revnum := numSb }
  hdrRevnum := 0
  hdrBid := 0
  last := { sb := { sbInit with revnum := numSb - 1 }, hdr := none }

end ForestDB.Sb

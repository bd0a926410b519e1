import ForestDB.Lib.Bytes
import ForestDB.Lib.Pages

/-!
Document blocks (`docio_append_doc_raw`, `_docio_read_length`,
`_docio_read_doc_component`).

A document is a row of bytes over the payloads of one or more blocks. In a file
of the current version the meta area behind the payload names the next block of
the document, so the blocks of a document may be anywhere. In a file of an old
version they follow each other and the meta area is only a marker.
-/

namespace ForestDB.Docio

open Bytes

/-- The block size, and `ver_non_consecutive_doc` of the version of the file. -/
structure DocConfig where
  blocksize : Nat
  nonConsecutive : Bool
  deriving DecidableEq, Repr

variable (cfg : DocConfig)

/-- The part of a block that is left beside `DOCBLK_META_SIZE` or `BLK_MARKER_SIZE` bytes. -/
def DocConfig.payload : Nat :=
  if cfg.nonConsecutive then cfg.blocksize - 16 else cfg.blocksize - 1

/-- `BLK_MARKER_DOC` -/
def blkMarkerDoc : UInt8 := 0xdd

/-- The size of `struct docio_length`. -/
def lengthSize : Nat := 16

/-- The payload and the meta area of a block. No next block is `BLK_NOT_FOUND`. -/
structure DocBlock where
  payload : List UInt8
  nextBid : Option Nat
  marker : UInt8
  deriving DecidableEq, Repr

/-- A file. `reusable` are the blocks that the superblock's bitmap offers for reuse, in the order
in which it hands them out; `writable` tells the blocks that were not committed yet. -/
structure DocFile where
  blocks : Nat → DocBlock
  numBlocks : Nat
  reusable : List Nat
  writable : Nat → Bool

/-- A file with the handle that documents are appended through. `owned` are the blocks that the
handle got so far; no function depends on it. -/
structure DocState where
  file : DocFile
  curblock : Option Nat
  curpos : Nat
  owned : List Nat

/-! ### Blocks of the file -/

/-- `filemgr_alloc` -/
def filemgrAlloc (file : DocFile) : Nat × DocFile :=
  match file.reusable with
  | bid :: reusable =>
    (bid, { file with
      reusable := reusable
      writable := Function.update file.writable bid true })
  | [] =>
    (file.numBlocks, { file with
      numBlocks := file.numBlocks + 1
      writable := Function.update file.writable file.numBlocks true })

/-- `filemgr_write_offset` into the payload. -/
def DocFile.write (file : DocFile) (bid pos : Nat) (data : List UInt8) : DocFile :=
  let block := file.blocks bid
  { file with
    blocks := Function.update file.blocks bid
      { block with payload := writeAt block.payload pos data } }

/-- `filemgr_write_offset` into the meta area, or `_add_blk_marker`. -/
def DocFile.writeMeta (file : DocFile) (bid : Nat) (next : Option Nat) :
    DocFile :=
  let block := file.blocks bid
  { file with
    blocks := Function.update file.blocks bid
      { block with
        nextBid := if cfg.nonConsecutive then next else block.nextBid
        marker := blkMarkerDoc } }

/-- `filemgr_read` -/
def filemgrRead (file : DocFile) (bid : Nat) : Option DocBlock :=
  if bid < file.numBlocks then some (file.blocks bid) else none

/-- `_docio_fill_zero` -/
def docioFillZero (file : DocFile) (bid pos : Nat) : DocFile :=
  if pos + lengthSize ≤ cfg.payload then file.write bid pos (List.replicate lengthSize 0)
  else file

/-! ### Appending -/

def DocState.alloc (st : DocState) : Nat × DocState :=
  let (bid, file) := filemgrAlloc st.file
  (bid, { st with file := file, owned := bid :: st.owned })

def allocBlocks : Nat → DocState → List Nat × DocState
  | 0, st => ([], st)
  | n + 1, st =>
    let (bid, st) := st.alloc
    let (bids, st) := allocBlocks n st
    (bid :: bids, st)

/-- A new current block. -/
def DocState.newBlock (st : DocState) : Nat × DocState :=
  let (bid, st) := st.alloc
  (bid, { st with curblock := some bid, curpos := 0 })

/-- The current block, or a new one if there is none or it cannot be written any more. -/
def ensureBlock (st : DocState) : Nat × DocState :=
  match st.curblock with
  | none => st.newBlock
  | some bid => if st.file.writable bid then (bid, st) else st.newBlock

/-- The blocks for a document that does not fit, and whether it starts in the current block, where
`offset` bytes are left. If the first new block does not follow the current one, the document
starts in the new block and may need one more. -/
def allocNonConsecutive (curblock nblock remain offset : Nat) (st : DocState) :
    List Nat × Bool × DocState :=
  let newBlock := decide (offset < remain)
  match nblock + newBlock.toNat with
  | 0 => ([], decide (0 < offset), st)
  | blockListSize + 1 =>
    let (first, st) := st.alloc
    let startFromNewBlock := decide (curblock + 1 < first)
    let oneMore := startFromNewBlock && decide (remain ≠ 0) && !newBlock
    let (rest, st) := allocBlocks (blockListSize + oneMore.toNat) st
    (first :: rest, decide (0 < offset) && !startFromNewBlock, st)

/-- `filemgr_alloc_multiple` -/
def allocMultiple (n : Nat) (st : DocState) : List Nat × DocState :=
  let bids := List.range' st.file.numBlocks n
  (bids, { st with
    file := { st.file with
      numBlocks := st.file.numBlocks + n
      writable := fun bid => st.file.writable bid || decide (bid ∈ bids) }
    owned := bids ++ st.owned })

/-- The same for a file of an old version: the document starts in the current block if that is the
last of the file. -/
def allocConsecutive (curblock nblock remain offset : Nat) (st : DocState) :
    List Nat × Bool × DocState :=
  if st.file.numBlocks = curblock + 1 then
    let (bids, st) := allocMultiple (nblock + (decide (offset < remain)).toNat) st
    (bids, true, st)
  else
    let (bids, st) := allocMultiple (nblock + (decide (0 < remain)).toNat) st
    (bids, false, st)

/-- The loop over the new blocks. `offset` is a `uint32_t`. -/
def writeBlocks (cfg : DocConfig) (buf : List UInt8) :
    List Nat → Nat → Nat → DocState → DocState
  | [], _, _, st => st
  | bid :: bids, offset, remainsize, st =>
    let file := st.file.writeMeta cfg bid bids.head?
    if cfg.payload ≤ remainsize then
      writeBlocks cfg buf bids ((offset + cfg.payload) % 2 ^ 32) (remainsize - cfg.payload)
        { st with
          file := file.write bid 0 ((buf.drop offset).take cfg.payload)
          curblock := some bid
          curpos := cfg.payload }
    else
      -- The source asserts that this is the last block.
      let file := file.write bid 0 ((buf.drop offset).take remainsize)
      { st with
        file := docioFillZero cfg file bid remainsize
        curblock := some bid
        curpos := remainsize }

/-- The blocks for the rest of a document of `size` bytes. -/
def allocSpilled (curblock size : Nat) (st : DocState) :
    List Nat × Bool × DocState :=
  let nblock := size / cfg.payload
  let remain := size % cfg.payload
  let offset := cfg.payload - st.curpos
  if cfg.nonConsecutive then allocNonConsecutive curblock nblock remain offset st
  else allocConsecutive curblock nblock remain offset st

/-- A document that does not fit into the current block. -/
def appendSpilled (curblock : Nat) (st : DocState) (buf : List UInt8) :
    Nat × DocState :=
  let offset := cfg.payload - st.curpos
  let (bids, startHere, st') := allocSpilled cfg curblock buf.length st
  if startHere then
    let file := st'.file.writeMeta cfg curblock bids.head?
    let file := file.write curblock st.curpos (buf.take offset)
    (curblock * cfg.blocksize + st.curpos,
      writeBlocks cfg buf bids offset (buf.length - offset) { st' with file := file })
  else
    (bids.headD 0 * cfg.blocksize, writeBlocks cfg buf bids 0 buf.length st')

/-- `docio_append_doc_raw` -/
def docioAppendDocRaw (st : DocState) (buf : List UInt8) : Nat × DocState :=
  let (curblock, st) := ensureBlock st
  if buf.length ≤ cfg.payload - st.curpos then
    let file := st.file.writeMeta cfg curblock none
    let file := file.write curblock st.curpos buf
    let curpos := st.curpos + buf.length
    (curblock * cfg.blocksize + st.curpos,
      { st with file := docioFillZero cfg file curblock curpos, curpos := curpos })
  else appendSpilled cfg curblock st buf

/-! ### Reading -/

inductive ReadError where
  | readFail
  | fileCorruption
  | checksumError
  | compressionFail
  deriving DecidableEq, Repr

/-- The block after `bid`. -/
def nextBid (cfg : DocConfig) (block : DocBlock) (bid : Nat) : Option Nat :=
  if cfg.nonConsecutive then block.nextBid else some (bid + 1)

/-- `_docio_read_through_buffer` with `_docio_check_buffer`. -/
def readDocBlock (file : DocFile) (bid : Nat) : Except ReadError DocBlock :=
  match filemgrRead file bid with
  | none => .error .readFail
  | some block => if block.marker = blkMarkerDoc then .ok block else .error .readFail

/-- `_docio_read_length`: the bytes of the length structure and the offset behind it. They are on
one block or on two. -/
def docioReadLength (file : DocFile) (offset : Nat) :
    Except ReadError (List UInt8 × Nat) := do
  let bid := offset / cfg.blocksize
  let pos := offset % cfg.blocksize
  let restsize := cfg.payload - pos
  let block ← readDocBlock file bid
  if lengthSize ≤ restsize then
    return ((block.payload.drop pos).take lengthSize, bid * cfg.blocksize + (pos + lengthSize))
  else
    match nextBid cfg block bid with
    | none => return (List.replicate lengthSize 0, offset)
    | some next =>
      let block' ← readDocBlock file next
      return ((block.payload.drop pos).take restsize ++
          block'.payload.take (lengthSize - restsize),
        next * cfg.blocksize + (lengthSize - restsize))

/-- The loop of `_docio_read_doc_component`. -/
def readComponent (cfg : DocConfig) (file : DocFile) :
    Nat → Nat → Nat → Nat → Except ReadError (List UInt8 × Nat)
  | 0, _, _, _ => .error .readFail
  | fuel + 1, bid, pos, restLen =>
    if restLen = 0 then .ok ([], bid * cfg.blocksize + pos)
    else
      match filemgrRead file bid with
      | none => .error .readFail
      | some block =>
        let restsize := cfg.payload - pos
        if restLen ≤ restsize then
          .ok ((block.payload.drop pos).take restLen, bid * cfg.blocksize + (pos + restLen))
        else
          match nextBid cfg block bid with
          | none => .error .fileCorruption
          | some next =>
            if file.numBlocks ≤ next then .error .fileCorruption
            else do
              let (bytes, offset) ← readComponent cfg file fuel next 0 (restLen - restsize)
              return ((block.payload.drop pos).take restsize ++ bytes, offset)

/-- `_docio_read_doc_component`. Every pass but the first takes a whole payload. -/
def docioReadDocComponent (file : DocFile) (offset len : Nat) :
    Except ReadError (List UInt8 × Nat) :=
  readComponent cfg file (len + 2) (offset / cfg.blocksize) (offset % cfg.blocksize) len

end ForestDB.Docio

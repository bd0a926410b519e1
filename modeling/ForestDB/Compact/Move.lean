import ForestDB.Docio.Roundtrip
import ForestDB.Wal.Compact

/-!
Moving the documents of an index into a new file (`_fdb_compact_move_docs`).

The offsets that the old trie holds are collected in windows. A window is sorted by offset, read
batch by batch (`docio_batch_read_docs`), and the documents that are kept are appended to the new
file and inserted into its log, which is flushed after every batch. With asynchronous I/O the first
attempt reads from the block cache only. A document is put off, to be read from the buffers once a
number of requests are complete, if this attempt returns zero; the status of a failed one is stored
in a `uint64_t` and compared with `<= 0`, so that it passes for the offset behind a document.

What a read comes to is a parameter, for each document and each way of reading it. The blocks that
a flush writes for the new index are a parameter too; they are never document blocks.
-/

namespace ForestDB.Compact

open Docio (DocLength DocConfig DocCodec DocRun DocState DocFile DocEvent)
open Wal (WalConfig FlushEnv Index)

abbrev Key := List UInt8

/-- What is read of a document. -/
abbrev Read := DocLength × Docio.Doc

/-- What `docio_read_doc` comes to: a document, a negative status with the length as far as it was
read and no key, or zero in a region that is filled with zeros. -/
inductive ReadResult where
  | doc (r : Read)
  | failed (length : DocLength)
  | zeros
  deriving DecidableEq, Repr

/-- The document of a slot. -/
def ReadResult.slot : ReadResult → Option Read
  | .doc r => some r
  | _ => none

/-- What a submission of asynchronous requests comes to. The events of a complete one may arrive in
any order. -/
inductive Submission where
  | failed
  | partly (n : Nat)
  | complete (order : List Nat)
  deriving DecidableEq, Repr

/-- `struct async_io_handle`. The result of `aio_submit` and `aio_getevents` depends on the number
of the call and on the offsets that are requested. -/
structure Aio where
  queueDepth : Nat
  submit : Nat → List Nat → Submission
  submit_perm : ∀ {n : Nat} {os order : List Nat}, submit n os = .complete order → order.Perm os
  read : Nat → ReadResult

/-- The old file as the compactor reads it, the configuration and the new file's environment. -/
structure Env [LinearOrder Key] where
  wal : WalConfig Key
  flush : FlushEnv Key
  doc : DocConfig
  codec : DocCodec
  writeIndex : DocState → DocFile
  writeIndex_ok : ∀ run : DocRun, run.state.Sound doc →
    (DocEvent.other (writeIndex run.state)).Ok codec run
  now : Nat
  purgingInterval : Nat
  windowSize : Nat
  batchSize : Nat
  dataThreshold : Nat
  batch_pos : 0 < batchSize
  data_pos : 0 < dataThreshold
  sortByKey : Bool
  resident : Nat → Bool
  read : Nat → ReadResult
  aio : Option Aio

/-- The new file while documents are moved into it; `calls` counts the submissions. -/
structure Compaction where
  run : DocRun
  wal : Wal Key
  index : Index Key
  calls : Nat

variable [LinearOrder Key] (env : Env)

/-! ### Reading a batch -/

/-- `_fdb_get_docsize` -/
def docSize (length : DocLength) : Nat :=
  length.keylen + length.metalen + length.bodylenOndisk + Docio.lengthSize + 4 + 8 + 4

/-- The array of documents while a batch is read. A slot whose document could not be read has no
key. -/
structure Batch where
  slots : List (Option Read)
  pending : List Nat
  size : Nat
  calls : Nat

/-- The first attempt to read a document: with asynchronous I/O only from the cache. -/
def attempt (offset : Nat) : ReadResult :=
  if env.aio.isSome && !env.resident offset then .failed ⟨0, 0, 0, 0, 0⟩ else env.read offset

/-- The size of a document that could not be read is added, too. -/
def ReadResult.size : ReadResult → Nat
  | .doc r => docSize r.1
  | .failed length => docSize length
  | .zeros => 0

def Batch.add (b : Batch) (r : ReadResult) : Batch :=
  { b with slots := b.slots ++ [r.slot], size := b.size + r.size }

/-- The loop of `_submit_async_io_requests` over the events. -/
def Batch.readEvents (b : Batch) (aio : Aio) (order : List Nat) : Batch :=
  order.foldl (fun b offset => b.add (aio.read offset))
    { b with pending := [], calls := b.calls + 1 }

/-- The loop of `docio_batch_read_docs`; nothing is the result of a failed submission. -/
def batchLoop : List Nat → Nat → Batch → Option Batch
  | [], _, b => some b
  | _, 0, b => some b
  | offset :: offsets, n + 1, b =>
    if b.size < env.dataThreshold then
      match attempt env offset, env.aio with
      | .zeros, some aio =>
        let pending := b.pending ++ [offset]
        if pending.length = aio.queueDepth then
          match aio.submit b.calls pending with
          | .complete order => batchLoop offsets n (b.readEvents aio order)
          | _ => none
        else batchLoop offsets n { b with pending := pending }
      | r, _ => batchLoop offsets n (b.add r)
    else some b

/-- The requests that are left over at the end. If they are taken only in part, as many slots are
counted although nothing was read into them. -/
def Batch.finish (b : Batch) (aio : Option Aio) : Option Batch :=
  match aio with
  | none => some b
  | some aio =>
    if b.pending = [] then some b
    else
      match aio.submit b.calls b.pending with
      | .failed => none
      | .partly n =>
        some { b with
          slots := b.slots ++ List.replicate n none
          pending := []
          calls := b.calls + 1 }
      | .complete order => some (b.readEvents aio order)

/-- `docio_batch_read_docs` -/
def docioBatchReadDocs (calls : Nat) (offsets : List Nat) : Option Batch :=
  (batchLoop env offsets env.batchSize ⟨[], [], 0, calls⟩).bind fun b => b.finish env.aio

/-! ### Moving -/

def isDeleted (length : DocLength) : Bool := length.flag &&& Docio.docioDeleted ≠ 0

/-- Without a callback a document is kept unless it is a tombstone that is overdue. The sum is one
of `uint32_t`. -/
def keepDoc (r : Read) : Bool :=
  !isDeleted r.1 || (env.now < (r.2.timestamp + env.purgingInterval) % 2 ^ 32 && isDeleted r.1)

/-- Append a document to the new file and insert it into the log. -/
def Compaction.write (st : Compaction) (r : Read) : Compaction :=
  let deleted := isDeleted r.1
  let offset := (Docio.docioAppendDoc env.doc env.codec st.run.state r.2 deleted false).1
  let size := docSize (Docio.docLength env.codec r.2 (Docio.docFlag deleted false))
  { st with
    run := st.run.append env.doc env.codec (.doc r.2 deleted false)
    wal := st.wal.walInsertCompact env.wal Wal.globalTxn r.2.key ⟨deleted, r.2.seqnum, size⟩
      offset }

def moveDoc (st : Compaction) (slot : Option Read) : Compaction :=
  match slot with
  | none => st
  | some r => if keepDoc env r then st.write env r else st

/-- The flush after a batch. -/
def Compaction.flushWal (st : Compaction) : Compaction :=
  if 0 < st.wal.counters.numFlushable then
    let r := st.wal.walFlushByCompactor env.wal env.flush st.index none
    { st with
      run := { st.run with
        state := { st.run.state with file := env.writeIndex st.run.state } }
      wal := r.wal.walReleaseFlushedItems env.wal r.flushItems
      index := r.index }
  else st

/-- The loop over the batches of a window. The outer option is for the fuel; the inner one is
`FDB_RESULT_COMPACTION_FAIL`. -/
def moveBatches : Nat → Compaction → List Nat → Option (Option Compaction)
  | 0, _, _ => none
  | fuel + 1, st, offsets =>
    match docioBatchReadDocs env st.calls offsets with
    | none => some none
    | some b =>
      let st := ((b.slots.foldl (moveDoc env) st).flushWal env)
      let st : Compaction := { st with calls := b.calls }
      let rest := offsets.drop b.slots.length
      if rest = [] then some (some st) else moveBatches fuel st rest

def arrange (window : List Nat) : List Nat :=
  if env.sortByKey then window else window.mergeSort

/-- The loop over the values of the old trie, with the window that is being collected. -/
def moveWindows (fuel : Nat) : Compaction → List Nat → List Nat → Option (Option Compaction)
  | st, window, [] =>
    if window = [] then some (some st) else moveBatches env fuel st (arrange env window)
  | st, window, offset :: offsets =>
    let window := window ++ [offset]
    if env.windowSize ≤ window.length then
      match moveBatches env fuel st (arrange env window) with
      | some (some st) => moveWindows fuel st [] offsets
      | r => r
    else moveWindows fuel st window offsets

/-- `_fdb_compact_move_docs`; `offsets` are the values of the old trie in its order. -/
def fdbCompactMoveDocs (fuel : Nat) (st : Compaction) (offsets : List Nat) :
    Option (Option Compaction) :=
  moveWindows env fuel st [] offsets

end ForestDB.Compact

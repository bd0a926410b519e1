import ForestDB.Docio.Read

/-!
Documents as bytes (`_docio_append_doc`, `docio_append_commit_mark`,
`docio_read_doc`).

A document is its length structure, the key, the timestamp, the sequence number,
the metadata, the body and a checksum of all of that. The checksum and the
compression of bodies are parameters, with the laws that reading depends on.
-/

namespace ForestDB.Docio

open Bytes Pages

/-- The checksum of the file (`get_checksum`, with the checksum of what comes before), the
compressor, and `compress_document_body` of the handle. -/
structure DocCodec where
  checksum : UInt32 → List UInt8 → UInt32
  checksum_append : ∀ pre xs ys, checksum pre (xs ++ ys) = checksum (checksum pre xs) ys
  compress : List UInt8 → List UInt8
  uncompress : List UInt8 → Option (List UInt8)
  uncompress_compress : ∀ body, uncompress (compress body) = some body
  compressBody : Bool

/-- `DOCIO_COMPRESSED`, `DOCIO_DELETED`, `DOCIO_TXN_DIRTY`, `DOCIO_TXN_COMMITTED`,
`DOCIO_SYSTEM` -/
def docioCompressed : UInt8 := 0x02
def docioDeleted : UInt8 := 0x04
def docioTxnDirty : UInt8 := 0x08
def docioTxnCommitted : UInt8 := 0x10
def docioSystem : UInt8 := 0x20

/-- `FDB_MAX_KEYLEN_INTERNAL` -/
def maxKeylenInternal : Nat := 65520

/-- `struct docio_length` without the checksum, which is computed from it, and without the reserved
field, which is always zero. -/
structure DocLength where
  keylen : Nat
  metalen : Nat
  bodylen : Nat
  bodylenOndisk : Nat
  flag : UInt8
  deriving DecidableEq, Repr

/-- `struct docio_object` as it is appended. -/
structure Doc where
  key : List UInt8
  metadata : List UInt8
  body : List UInt8
  timestamp : Nat
  seqnum : Nat
  deriving DecidableEq, Repr

/-- The part of the length structure that its checksum covers. -/
def DocLength.header (length : DocLength) : List UInt8 :=
  encodeBE 2 length.keylen ++ (encodeBE 2 length.metalen ++
    (encodeBE 4 length.bodylen ++ encodeBE 4 length.bodylenOndisk))

/-- `_docio_length_checksum` -/
def lengthChecksum (codec : DocCodec) (header : List UInt8) : UInt8 :=
  (codec.checksum 0 header).toUInt8

def DocLength.encode (codec : DocCodec) (length : DocLength) : List UInt8 :=
  length.header ++ [length.flag, lengthChecksum codec length.header, 0, 0]

def DocLength.decode (bytes : List UInt8) : DocLength where
  keylen := decodeBE (bytes.take 2)
  metalen := decodeBE ((bytes.drop 2).take 2)
  bodylen := decodeBE ((bytes.drop 4).take 4)
  bodylenOndisk := decodeBE ((bytes.drop 8).take 4)
  flag := bytes.getD 12 0

/-! ### Appending -/

/-- A body is compressed unless it is empty. -/
def compresses (codec : DocCodec) (doc : Doc) : Bool :=
  !doc.body.isEmpty && codec.compressBody

def bodyOnDisk (codec : DocCodec) (doc : Doc) : List UInt8 :=
  if compresses codec doc then codec.compress doc.body else doc.body

def docLength (codec : DocCodec) (doc : Doc) (flag : UInt8) : DocLength where
  keylen := doc.key.length
  metalen := doc.metadata.length
  bodylen := doc.body.length
  bodylenOndisk := (bodyOnDisk codec doc).length
  flag := if compresses codec doc then flag ||| docioCompressed else flag

/-- What the checksum of a document covers. -/
def docContent (codec : DocCodec) (doc : Doc) (flag : UInt8) : List UInt8 :=
  (docLength codec doc flag).encode codec ++ (doc.key ++ (encodeBE 4 doc.timestamp ++
    (encodeBE 8 doc.seqnum ++ (doc.metadata ++ bodyOnDisk codec doc))))

/-- The buffer of `_docio_append_doc`. The position of the checksum is a `uint32_t`, and it is the one
number that is copied without `_endian_encode`. -/
def docBytes (codec : DocCodec) (doc : Doc) (flag : UInt8) : List UInt8 :=
  let content := docContent codec doc flag
  writeAt (content ++ List.replicate 4 0) (content.length % 2 ^ 32)
    (encodeLE 4 (codec.checksum 0 content).toNat)

/-- The flag of a document that is appended with `docio_append_doc`. -/
def docFlag (deleted txnEnabled : Bool) : UInt8 :=
  (if deleted then docioDeleted else 0) ||| (if txnEnabled then docioTxnDirty else 0)

variable (cfg : DocConfig)

def docioAppendDoc (codec : DocCodec) (st : DocState) (doc : Doc)
    (deleted txnEnabled : Bool) : Nat × DocState :=
  docioAppendDocRaw cfg st (docBytes codec doc (docFlag deleted txnEnabled))

def docioAppendDocSystem (codec : DocCodec) (st : DocState) (doc : Doc) :
    Nat × DocState :=
  docioAppendDocRaw cfg st (docBytes codec doc docioSystem)

/-- The length structure of a commit mark. -/
def markLength : DocLength :=
  { keylen := 0, metalen := 0, bodylen := 0, bodylenOndisk := 0, flag := docioTxnCommitted }

def markBytes (codec : DocCodec) (docOffset : Nat) : List UInt8 :=
  markLength.encode codec ++ encodeBE 8 docOffset

def docioAppendCommitMark (codec : DocCodec) (st : DocState) (docOffset : Nat) :
    Nat × DocState :=
  docioAppendDocRaw cfg st (markBytes codec docOffset)

/-! ### Reading -/

inductive DocRead where
  | doc (length : DocLength) (doc : Doc)
  | commitMark (docOffset : Nat)
  /-- The rest of the block is filled with zeros. -/
  | zero
  deriving DecidableEq, Repr

/-- The body as it is stored and as it was appended (`_docio_read_doc_component_comp` for a
compressed one), and the offset behind it. -/
def readBody (codec : DocCodec) (file : DocFile) (length : DocLength)
    (offset : Nat) : Except ReadError (List UInt8 × List UInt8 × Nat) :=
  if length.flag &&& docioCompressed ≠ 0 then do
    let (stored, offset) ← docioReadDocComponent cfg file offset length.bodylenOndisk
    match codec.uncompress stored with
    | none => throw .compressionFail
    | some body =>
      if body.length ≠ length.bodylen then throw .compressionFail
      else return (stored, body, offset)
  else do
    let (body, offset) ← docioReadDocComponent cfg file offset length.bodylen
    return (body, body, offset)

/-- The part of `docio_read_doc` behind the length structure. -/
def readContent (codec : DocCodec) (file : DocFile) (lengthBytes : List UInt8)
    (offset : Nat) : Except ReadError (DocRead × Nat) := do
  let length := DocLength.decode lengthBytes
  let (key, offset) ← docioReadDocComponent cfg file offset length.keylen
  let (timestamp, offset) ← docioReadDocComponent cfg file offset 4
  let (seqnum, offset) ← docioReadDocComponent cfg file offset 8
  let (metadata, offset) ← docioReadDocComponent cfg file offset length.metalen
  let (stored, body, offset) ← readBody cfg codec file length offset
  let (crcFile, offset) ← docioReadDocComponent cfg file offset 4
  let crc := codec.checksum 0 lengthBytes
  let crc := codec.checksum crc key
  let crc := codec.checksum crc timestamp
  let crc := codec.checksum crc seqnum
  let crc := codec.checksum crc metadata
  let crc := codec.checksum crc stored
  if crc.toNat ≠ decodeLE crcFile then throw .checksumError
  else
    return (.doc length
      { key := key
        metadata := metadata
        body := body
        timestamp := decodeBE timestamp
        seqnum := decodeBE seqnum }, offset)

/-- A commit mark behind its length structure. -/
def readCommitMark (file : DocFile) (length : DocLength) (offset : Nat) :
    Except ReadError (DocRead × Nat) := do
  if length.keylen ≠ 0 ∨ length.metalen ≠ 0 ∨ length.bodylen ≠ 0 ∨ length.bodylenOndisk ≠ 0 then
    throw .fileCorruption
  else
    let (bytes, offset) ← docioReadDocComponent cfg file offset 8
    if file.numBlocks * cfg.blocksize < decodeBE bytes then throw .fileCorruption
    else return (.commitMark (decodeBE bytes), offset)

/-- `docio_read_doc`: what is at the offset, and the offset behind it (zero if nothing is). -/
def docioReadDoc (codec : DocCodec) (file : DocFile) (offset : Nat) :
    Except ReadError (DocRead × Nat) := do
  let (lengthBytes, offset) ← docioReadLength cfg file offset
  if lengthBytes = List.replicate lengthSize 0 then return (.zero, 0)
  else if lengthChecksum codec (lengthBytes.take 12) ≠ lengthBytes.getD 13 0 then
    throw .checksumError
  else
    let length := DocLength.decode lengthBytes
    if length.flag &&& docioTxnCommitted ≠ 0 then readCommitMark cfg file length offset
    else if length.keylen = 0 ∨ maxKeylenInternal < length.keylen then throw .fileCorruption
    else readContent cfg codec file lengthBytes offset

end ForestDB.Docio

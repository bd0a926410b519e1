import ForestDB.Docio.Doc
import ForestDB.Lib.Run

/-!
Every document that was appended can be read back.
-/

namespace ForestDB.Docio

open Bytes Pages List Option

/-! ### The length structure -/

/-- The lengths fit their fields. -/
structure DocLength.Fits (length : DocLength) : Prop where
  keylen : length.keylen < 2 ^ 16
  metalen : length.metalen < 2 ^ 16
  bodylen : length.bodylen < 2 ^ 32
  bodylenOndisk : length.bodylenOndisk < 2 ^ 32

section Length

variable {codec : DocCodec} {length : DocLength}

theorem length_header : length.header.length = 12 := by
  simp [DocLength.header]

theorem length_encode : (length.encode codec).length = lengthSize := by
  rfl

theorem getD_encode (i : Nat) : (length.encode codec).getD (12 + i) 0 =
    [length.flag, lengthChecksum codec length.header, 0, 0].getD i 0 := by
  rw [getD_eq_getElem?_getD, getD_eq_getElem?_getD, DocLength.encode,
    List.getElem?_append_right (by rw [length_header]; omega), length_header, Nat.add_sub_cancel_left]

theorem decode_encode (h : length.Fits) : DocLength.decode (length.encode codec) = length := by
  have hflag : (length.encode codec).getD 12 0 = length.flag := getD_encode 0
  have hbytes : length.encode codec = encodeBE 2 length.keylen ++ (encodeBE 2 length.metalen ++
      (encodeBE 4 length.bodylen ++ (encodeBE 4 length.bodylenOndisk ++
        [length.flag, lengthChecksum codec length.header, 0, 0]))) := by
    rw [DocLength.encode, DocLength.header]
    simp
  have hdrop2 := congrArg (List.drop 2) hbytes
  rw [drop_left' (length_encodeBE 2 _)] at hdrop2
  have hdrop4 := congrArg (List.drop 2) hdrop2
  rw [drop_drop, drop_left' (length_encodeBE 2 _)] at hdrop4
  have hdrop8 := congrArg (List.drop 4) hdrop4
  rw [drop_drop, drop_left' (length_encodeBE 4 _)] at hdrop8
  rw [DocLength.decode, hflag, hdrop2, hdrop4, hdrop8, hbytes,
    take_left' (length_encodeBE 2 _), take_left' (length_encodeBE 2 _),
    take_left' (length_encodeBE 4 _), take_left' (length_encodeBE 4 _),
    decodeBE_encodeBE h.keylen, decodeBE_encodeBE h.metalen, decodeBE_encodeBE h.bodylen,
    decodeBE_encodeBE h.bodylenOndisk]

end Length

/-! ### One document -/

/-- The document fits the types of its fields, and its bytes can be counted in 32 bits. -/
structure Doc.Fits (codec : DocCodec) (doc : Doc) : Prop where
  keylen : doc.key.length < 2 ^ 16
  metalen : doc.metadata.length < 2 ^ 16
  bodylen : doc.body.length < 2 ^ 32
  timestamp : doc.timestamp < 2 ^ 32
  seqnum : doc.seqnum < 2 ^ 64
  size : lengthSize + doc.key.length + 4 + 8 + doc.metadata.length +
    (bodyOnDisk codec doc).length + 4 < 2 ^ 32

section One

variable {cfg : DocConfig} {codec : DocCodec} {st : DocState} {b pos b' pos' : Nat} {doc : Doc}
  {flag : UInt8}

theorem Doc.Fits.length (h : doc.Fits codec) : (docLength codec doc flag).Fits where
  keylen := h.keylen
  metalen := h.metalen
  bodylen := h.bodylen
  bodylenOndisk := by
    have := h.size
    simp only [docLength]
    omega

theorem length_docContent (codec : DocCodec) (doc : Doc) (flag : UInt8) :
    (docContent codec doc flag).length = lengthSize + doc.key.length + 4 + 8 +
      doc.metadata.length + (bodyOnDisk codec doc).length := by
  simp only [docContent, length_append, length_encode, length_encodeBE]
  omega

theorem docBytes_eq (h : doc.Fits codec) : docBytes codec doc flag = docContent codec doc flag ++
    encodeLE 4 (codec.checksum 0 (docContent codec doc flag)).toNat := by
  have hsize := h.size
  have hlen := length_docContent codec doc flag
  simp only [docBytes]
  rw [Nat.mod_eq_of_lt (by omega), writeAt_append]
  exact append_nil _

theorem readComponent_append (hsound : st.Sound cfg) (hn : 0 < cfg.payload)
    (hblock : cfg.payload < cfg.blocksize) {xs ys : List UInt8}
    (h : Walk (st.view cfg) cfg.payload b pos (xs ++ ys) b' pos') :
    ∃ c q, docioReadDocComponent cfg st.file (b * cfg.blocksize + pos) xs.length =
        .ok (xs, c * cfg.blocksize + q) ∧ Walk (st.view cfg) cfg.payload c q ys b' pos' := by
  obtain ⟨c, q, hfirst, hlast⟩ := h.split
  exact ⟨c, q, docioReadDocComponent_walk hsound hn hblock hfirst, hlast⟩

/-- The flags a document is appended with: neither compressed nor a commit mark. -/
structure PlainFlag (flag : UInt8) : Prop where
  plain : flag &&& docioCompressed = 0
  compressed : (flag ||| docioCompressed) &&& docioCompressed ≠ 0
  noMark : flag &&& docioTxnCommitted = 0
  noMark' : (flag ||| docioCompressed) &&& docioTxnCommitted = 0

section

variable (hsound : st.Sound cfg) (hn : 0 < cfg.payload) (hblock : cfg.payload < cfg.blocksize)
  (hflag : PlainFlag flag)
include hsound hn hblock hflag

theorem readBody_walk {ys : List UInt8}
    (h : Walk (st.view cfg) cfg.payload b pos (bodyOnDisk codec doc ++ ys) b' pos') :
    ∃ c q, readBody cfg codec st.file (docLength codec doc flag) (b * cfg.blocksize + pos) =
        .ok (bodyOnDisk codec doc, doc.body, c * cfg.blocksize + q) ∧
      Walk (st.view cfg) cfg.payload c q ys b' pos' := by
  obtain ⟨c, q, hread, hrest⟩ := readComponent_append hsound hn hblock h
  refine ⟨c, q, ?_, hrest⟩
  unfold readBody docLength
  cases hcomp : compresses codec doc with
  | true =>
    have hstored : bodyOnDisk codec doc = codec.compress doc.body := by
      rw [bodyOnDisk, hcomp]
      rfl
    rw [hstored] at hread ⊢
    simp only [if_true, hflag.compressed, ne_eq, hread, bind, Except.bind,
      codec.uncompress_compress]
    rfl
  | false =>
    have hstored : bodyOnDisk codec doc = doc.body := by
      rw [bodyOnDisk, hcomp]
      rfl
    rw [hstored] at hread ⊢
    simp only [Bool.false_eq_true, if_false, hflag.plain, hread]
    rfl

theorem readContent_walk (hfits : doc.Fits codec)
    (h : Walk (st.view cfg) cfg.payload b pos (doc.key ++ (encodeBE 4 doc.timestamp ++
      (encodeBE 8 doc.seqnum ++ (doc.metadata ++ (bodyOnDisk codec doc ++
        encodeLE 4 (codec.checksum 0 (docContent codec doc flag)).toNat))))) b' pos') :
    readContent cfg codec st.file ((docLength codec doc flag).encode codec)
        (b * cfg.blocksize + pos) =
      .ok (.doc (docLength codec doc flag) doc, b' * cfg.blocksize + pos') := by
  obtain ⟨b1, q1, hkey, h⟩ := readComponent_append hsound hn hblock h
  obtain ⟨b2, q2, htimestamp, h⟩ := readComponent_append hsound hn hblock h
  obtain ⟨b3, q3, hseqnum, h⟩ := readComponent_append hsound hn hblock h
  obtain ⟨b4, q4, hmetadata, h⟩ := readComponent_append hsound hn hblock h
  obtain ⟨b5, q5, hbody, h⟩ := readBody_walk hsound hn hblock hflag h
  have hcrc := docioReadDocComponent_walk hsound hn hblock h
  rw [length_encodeBE] at htimestamp hseqnum
  rw [length_encodeLE] at hcrc
  have hsum : codec.checksum (codec.checksum (codec.checksum (codec.checksum (codec.checksum
      (codec.checksum 0 ((docLength codec doc flag).encode codec)) doc.key)
      (encodeBE 4 doc.timestamp)) (encodeBE 8 doc.seqnum)) doc.metadata)
      (bodyOnDisk codec doc) = codec.checksum 0 (docContent codec doc flag) := by
    simp only [docContent, codec.checksum_append]
  have hlen : (docLength codec doc flag).keylen = doc.key.length ∧
      (docLength codec doc flag).metalen = doc.metadata.length := ⟨rfl, rfl⟩
  have hcrcFile : decodeLE (encodeLE 4 (codec.checksum 0 (docContent codec doc flag)).toNat) =
      (codec.checksum 0 (docContent codec doc flag)).toNat :=
    decodeLE_encodeLE (UInt32.toNat_lt _)
  have htime : decodeBE (encodeBE 4 doc.timestamp) = doc.timestamp :=
    decodeBE_encodeBE hfits.timestamp
  have hseq : decodeBE (encodeBE 8 doc.seqnum) = doc.seqnum := decodeBE_encodeBE hfits.seqnum
  simp only [readContent, decode_encode hfits.length, hlen, hkey, htimestamp, hseqnum, hmetadata,
    hbody, hcrc, hsum, bind, Except.bind, hcrcFile, htime, hseq, ne_eq]
  rfl

end

theorem docLength_noMark (hflag : PlainFlag flag) :
    (docLength codec doc flag).flag &&& docioTxnCommitted = 0 := by
  unfold docLength
  split
  · exact hflag.noMark'
  · exact hflag.noMark

theorem encode_ne_zero {length : DocLength} (h : length.Fits) (hkeylen : length.keylen ≠ 0) :
    length.encode codec ≠ List.replicate lengthSize 0 := by
  intro heq
  have hdecode : DocLength.decode (length.encode codec) = length := decode_encode h
  rw [heq] at hdecode
  apply hkeylen
  rw [← hdecode]
  rfl

/-- A document that was appended is read back, if its key has a length that the reader admits. -/
theorem docioReadDoc_walk (hsound : st.Sound cfg) (hn : lengthSize ≤ cfg.payload)
    (hblock : cfg.payload < cfg.blocksize) (hflag : PlainFlag flag) (hfits : doc.Fits codec)
    (hkey : doc.key ≠ []) (hmax : doc.key.length ≤ maxKeylenInternal)
    (h : Walk (st.view cfg) cfg.payload b pos (docBytes codec doc flag) b' pos') :
    docioReadDoc cfg codec st.file (b * cfg.blocksize + pos) =
      .ok (.doc (docLength codec doc flag) doc, b' * cfg.blocksize + pos') := by
  rw [docBytes_eq hfits, docContent] at h
  simp only [append_assoc] at h
  obtain ⟨c, q, hfirst, hrest⟩ := h.split
  have hlength := docioReadLength_walk hsound hn hblock length_encode hfirst
  have hcontent := readContent_walk hsound (lt_of_lt_of_le (by decide) hn) hblock hflag hfits
    hrest
  have hkeylen : (docLength codec doc flag).keylen = doc.key.length := rfl
  have hempty : doc.key.length ≠ 0 := fun hzero => hkey (eq_nil_of_length_eq_zero hzero)
  have hsum : lengthChecksum codec (((docLength codec doc flag).encode codec).take 12) =
      ((docLength codec doc flag).encode codec).getD 13 0 := by
    exact (getD_encode 1).symm
  simp only [docioReadDoc, hlength, bind, Except.bind]
  rw [if_neg (encode_ne_zero hfits.length hempty), if_neg (not_not.mpr hsum),
    decode_encode hfits.length, docLength_noMark hflag, if_neg (not_not.mpr rfl), if_neg (by omega), hcontent]

end One

/-! ### Runs -/

/-- What is appended. -/
inductive Item where
  | doc (doc : Doc) (deleted txnEnabled : Bool)
  | system (doc : Doc)
  | mark (docOffset : Nat)

def Item.append (cfg : DocConfig) (codec : DocCodec) (st : DocState) : Item → Nat × DocState
  | .doc d deleted txnEnabled => docioAppendDoc cfg codec st d deleted txnEnabled
  | .system d => docioAppendDocSystem cfg codec st d
  | .mark docOffset => docioAppendCommitMark cfg codec st docOffset

/-- The document of an item and its flag. -/
def Item.document : Item → Option (Doc × UInt8)
  | .doc d deleted txnEnabled => some (d, docFlag deleted txnEnabled)
  | .system d => some (d, docioSystem)
  | .mark _ => none

def Item.bytes (codec : DocCodec) : Item → List UInt8
  | .doc d deleted txnEnabled => docBytes codec d (docFlag deleted txnEnabled)
  | .system d => docBytes codec d docioSystem
  | .mark docOffset => markBytes codec docOffset

def Item.Fits (codec : DocCodec) : Item → Prop
  | .doc d _ _ => d.Fits codec
  | .system d => d.Fits codec
  | .mark docOffset => docOffset < 2 ^ 64

/-- A file with its handle, and what was appended with the offsets that were returned. -/
structure DocRun where
  state : DocState
  log : List (Nat × Item)

inductive DocEvent where
  | append (item : Item)
  /-- `docio_reset` -/
  | reset
  /-- Anything that other users of the file do to it: they write their blocks, allocate some, free
  some for reuse and commit. -/
  | other (file : DocFile)

/-- An item appended and entered into the log. -/
def DocRun.append (cfg : DocConfig) (codec : DocCodec) (run : DocRun) (item : Item) : DocRun :=
  let (offset, state) := item.append cfg codec run.state
  { state := state, log := (offset, item) :: run.log }

def DocRun.step (cfg : DocConfig) (codec : DocCodec) (run : DocRun) :
    DocEvent → Option (DocRun × Nat)
  | .append item => some (run.append cfg codec item, (item.append cfg codec run.state).1)
  | .reset => some ({ run with state := { run.state with curblock := none } }, 0)
  | .other file => some ({ run with state := { run.state with file := file } }, 0)

/-- Documents fit their fields, and other users neither write nor free the blocks of the handle. -/
def DocEvent.Ok (codec : DocCodec) (run : DocRun) : DocEvent → Prop
  | .append item => item.Fits codec
  | .reset => True
  | .other file =>
    (∀ b ∈ run.state.owned, file.blocks b = run.state.file.blocks b ∧ b < file.numBlocks) ∧
      file.reusable.Nodup ∧ ∀ b ∈ file.reusable, b < file.numBlocks ∧ b ∉ run.state.owned

/-- Any file, whatever it holds and whichever blocks it offers for reuse. -/
def DocRun.Init (run : DocRun) : Prop :=
  run.log = [] ∧ run.state.curblock = none ∧ run.state.owned = [] ∧
    run.state.file.reusable.Nodup ∧
    ∀ b ∈ run.state.file.reusable, b < run.state.file.numBlocks

section Runs

variable {cfg : DocConfig} {codec : DocCodec} {run run' : DocRun} {item : Item} {file : DocFile}
  {offset : Nat}

/-- What was appended is still where it was put. -/
structure DocRun.Stored (cfg : DocConfig) (codec : DocCodec) (run : DocRun) : Prop where
  sound : run.state.Sound cfg
  stored : ∀ offset item, (offset, item) ∈ run.log → item.Fits codec ∧
    ∃ b pos b' pos', offset = b * cfg.blocksize + pos ∧
      Walk (run.state.view cfg) cfg.payload b pos (item.bytes codec) b' pos'

theorem length_docBytes {doc : Doc} (h : doc.Fits codec) (flag : UInt8) :
    (docBytes codec doc flag).length < 2 ^ 32 := by
  have hsize := h.size
  rw [docBytes_eq h, length_append, length_docContent]
  exact hsize

theorem Item.append_appended {st : DocState} (h : st.Sound cfg) (hn : 0 < cfg.payload)
    (hfits : item.Fits codec) :
    Appended cfg st (item.bytes codec) (item.append cfg codec st).1
      (item.append cfg codec st).2 := by
  cases item with
  | doc d deleted txnEnabled =>
    exact docioAppendDocRaw_appended h hn (length_docBytes hfits _)
  | system d => exact docioAppendDocRaw_appended h hn (length_docBytes hfits _)
  | mark docOffset =>
    have hsize : (markBytes codec docOffset).length < 2 ^ 32 := by
      rw [markBytes, length_append, length_encode, length_encodeBE]
      decide
    exact docioAppendDocRaw_appended h hn hsize

theorem DocRun.Stored.later {st : DocState} (h : run.Stored cfg codec) (hsound : st.Sound cfg)
    (hle : (run.state.view cfg).Le (st.view cfg)) : DocRun.Stored cfg codec ⟨st, run.log⟩ := by
  refine ⟨hsound, ?_⟩
  intro offset item hitem
  obtain ⟨hfits, b, pos, b', pos', hoffset, hwalk⟩ := h.stored offset item hitem
  exact ⟨hfits, b, pos, b', pos', hoffset, hwalk.mono hle⟩

theorem DocRun.Stored.append (h : run.Stored cfg codec) (hn : 0 < cfg.payload)
    (hfits : item.Fits codec) : (run.append cfg codec item).Stored cfg codec := by
  have happended := Item.append_appended h.sound hn hfits
  have hlater := h.later happended.sound happended.kept
  refine ⟨hlater.sound, ?_⟩
  intro offset item' hitem
  rcases mem_cons.mp hitem with heq | hitem
  · obtain ⟨rfl, rfl⟩ := Prod.mk.inj heq
    exact ⟨hfits, happended.stored⟩
  · exact hlater.stored offset item' hitem

theorem DocRun.Stored.reset (h : run.Stored cfg codec) :
    DocRun.Stored cfg codec ⟨{ run.state with curblock := none }, run.log⟩ := by
  apply h.later
  · constructor
    case nodup => exact h.sound.nodup
    case reusable => exact h.sound.reusable
    case inFile => exact h.sound.inFile
    case current =>
      intro b hb
      contradiction
  · apply view_le
    · exact fun b hb => hb
    · exact fun b _ _ => ⟨rfl, (some_ne_none b).symm⟩
    · intro b hb _ hmarker
      exact ⟨_, view_page_left hb hmarker (some_ne_none b).symm, take_prefix _ _⟩

theorem DocRun.other_le (cfg : DocConfig) (hok : (DocEvent.other file).Ok codec run) :
    (run.state.view cfg).Le (DocState.view cfg { run.state with file := file }) := by
  obtain ⟨howned, -⟩ := hok
  apply view_le
  · exact fun b hb => hb
  · exact fun b hb hne => ⟨(howned b hb).1, hne⟩
  · intro b hb hcur hmarker
    have hblock := (howned b hb).1
    refine ⟨_, view_page_current hb (by simp only; rwa [hblock]) hcur, ?_⟩
    rw [hblock]

theorem DocRun.Stored.other (h : run.Stored cfg codec) (hok : (DocEvent.other file).Ok codec run) :
    DocRun.Stored cfg codec ⟨{ run.state with file := file }, run.log⟩ := by
  have hle := DocRun.other_le cfg hok
  obtain ⟨howned, hnodup, hreusable⟩ := hok
  apply h.later _ hle
  · constructor
    case nodup => exact hnodup
    case reusable => exact hreusable
    case inFile => exact fun b hb => (howned b hb).2
    case current =>
      intro b hb
      obtain ⟨hb', hpos⟩ := h.sound.current b hb
      rw [(howned b hb').1]
      exact ⟨hb', hpos⟩

theorem DocRun.Stored.step (h : run.Stored cfg codec) (hn : 0 < cfg.payload) {event : DocEvent}
    (hok : event.Ok codec run) (hstep : run.step cfg codec event = some (run', offset)) :
    run'.Stored cfg codec := by
  cases event with
  | append item =>
    obtain ⟨rfl, -⟩ := Prod.mk.inj (some.inj hstep)
    exact h.append hn hok
  | reset =>
    obtain ⟨rfl, -⟩ := Prod.mk.inj (some.inj hstep)
    exact h.reset
  | other file =>
    obtain ⟨rfl, -⟩ := Prod.mk.inj (some.inj hstep)
    exact h.other hok

theorem DocRun.Init.stored (h : run.Init) : run.Stored cfg codec := by
  obtain ⟨hlog, hcur, howned, hnodup, hreusable⟩ := h
  constructor
  case sound =>
    constructor
    case nodup => exact hnodup
    case reusable =>
      rw [howned]
      exact fun b hb => ⟨hreusable b hb, not_mem_nil⟩
    case inFile => simp [howned]
    case current => simp [hcur]
  case stored => simp [hlog]

theorem payload_lt (hn : 0 < cfg.payload) : cfg.payload < cfg.blocksize := by
  revert hn
  unfold DocConfig.payload
  split <;> omega

theorem document_plain {doc : Doc} {flag : UInt8} (h : item.document = some (doc, flag)) :
    PlainFlag flag := by
  cases item with
  | doc d deleted txnEnabled =>
    obtain ⟨-, rfl⟩ := Prod.mk.inj (some.inj h)
    cases deleted <;> cases txnEnabled <;> exact ⟨by decide, by decide, by decide, by decide⟩
  | system d =>
    obtain ⟨-, rfl⟩ := Prod.mk.inj (some.inj h)
    exact ⟨by decide, by decide, by decide, by decide⟩
  | mark docOffset => contradiction

theorem document_bytes (codec : DocCodec) {doc : Doc} {flag : UInt8}
    (h : item.document = some (doc, flag)) :
    item.bytes codec = docBytes codec doc flag ∧ (item.Fits codec → doc.Fits codec) := by
  cases item with
  | doc d deleted txnEnabled =>
    obtain ⟨rfl, rfl⟩ := Prod.mk.inj (some.inj h)
    exact ⟨rfl, fun hfits => hfits⟩
  | system d =>
    obtain ⟨rfl, rfl⟩ := Prod.mk.inj (some.inj h)
    exact ⟨rfl, fun hfits => hfits⟩
  | mark docOffset => contradiction

/-- After any history of the file, every document that was appended is read back from the offset
that was returned for it, together with the offset where its bytes end. -/
theorem docs_read_back (hn : lengthSize ≤ cfg.payload)
    (hrun : Reachable DocRun.Init (DocRun.step cfg codec) (fun run event => event.Ok codec run) run)
    {offset : Nat} {item : Item} {doc : Doc} {flag : UInt8} (hlog : (offset, item) ∈ run.log)
    (hdoc : item.document = some (doc, flag)) (hkey : doc.key ≠ [])
    (hmax : doc.key.length ≤ maxKeylenInternal) :
    ∃ b pos b' pos', offset = b * cfg.blocksize + pos ∧
      Walk (run.state.view cfg) cfg.payload b pos (docBytes codec doc flag) b' pos' ∧
      docioReadDoc cfg codec run.state.file offset =
        .ok (.doc (docLength codec doc flag) doc, b' * cfg.blocksize + pos') := by
  have hn' : 0 < cfg.payload := lt_of_lt_of_le (by decide) hn
  have hstored : run.Stored cfg codec :=
    Reachable.invariant (DocRun.Stored cfg codec) (fun _ => DocRun.Init.stored)
      (fun _ _ _ _ h hok hstep => h.step hn' hok hstep) hrun
  obtain ⟨hbytes, hfits⟩ := document_bytes codec hdoc
  obtain ⟨hitem, b, pos, b', pos', rfl, hwalk⟩ := hstored.stored offset item hlog
  rw [hbytes] at hwalk
  exact ⟨b, pos, b', pos', rfl, hwalk, docioReadDoc_walk hstored.sound hn (payload_lt hn')
    (document_plain hdoc) (hfits hitem) hkey hmax hwalk⟩

end Runs

/-- A file of the current version, empty, with a handle that does not compress. -/
def sampleConfig : DocConfig := { blocksize := 1024, nonConsecutive := true }

def sampleCodec : DocCodec where
  checksum pre xs := xs.foldl (fun crc x => 31 * crc + x.toUInt32) pre
  checksum_append _ _ _ := foldl_append
  compress := id
  uncompress := some
  uncompress_compress _ := rfl
  compressBody := false

def emptyRun : DocRun where
  state :=
    { file :=
        { blocks := fun _ => { payload := List.replicate 1008 0, nextBid := none, marker := 0 }
          numBlocks := 4
          reusable := []
          writable := fun _ => false }
      curblock := none
      curpos := 0
      owned := [] }
  log := []

def sampleDoc : Doc :=
  { key := [107], metadata := [], body := [], timestamp := 9, seqnum := 2 }

theorem emptyRun_init : emptyRun.Init :=
  ⟨rfl, rfl, rfl, nodup_nil, fun _ hb => absurd hb not_mem_nil⟩

/-- A document of two payloads and one byte. -/
def longDoc : Doc := { sampleDoc with body := List.replicate 2014 0 }

theorem longDoc_fits : longDoc.Fits sampleCodec :=
  ⟨by decide, by decide, by decide +kernel, by decide, by decide, by decide +kernel⟩

/-- It is read back, and so is a deleted document behind it. -/
theorem deleted_doc_read_back :
    let run := (emptyRun.append sampleConfig sampleCodec (.doc longDoc false false)).append
      sampleConfig sampleCodec (.doc sampleDoc true false)
    run.log.map Prod.snd = [.doc sampleDoc true false, .doc longDoc false false] ∧
      ∀ e ∈ run.log, ∀ doc flag, e.2.document = some (doc, flag) → ∃ next,
        docioReadDoc sampleConfig sampleCodec run.state.file e.1 =
          .ok (.doc (docLength sampleCodec doc flag) doc, next) := by
  intro run
  have hrun : Reachable DocRun.Init (DocRun.step sampleConfig sampleCodec)
      (fun run event => event.Ok sampleCodec run) run := by
    refine .next (i := .append (.doc sampleDoc true false)) (.next (.start emptyRun_init)
      (i := .append (.doc longDoc false false)) longDoc_fits rfl) ?_ rfl
    exact ⟨by decide, by decide, by decide, by decide, by decide, by decide⟩
  have hlog : ∀ (run : DocRun) (item : Item), (run.append sampleConfig sampleCodec item).log =
      ((item.append sampleConfig sampleCodec run.state).1, item) :: run.log := fun _ _ => rfl
  refine ⟨by rw [hlog, hlog]; rfl, fun e he doc flag hdoc => ?_⟩
  have hkey : doc.key = [107] := by
    rw [hlog, hlog] at he
    rcases mem_cons.mp he with rfl | he
    · exact (Prod.mk.inj (Option.some.inj hdoc)).1 ▸ rfl
    · rw [mem_singleton.mp he] at hdoc
      exact (Prod.mk.inj (Option.some.inj hdoc)).1 ▸ rfl
  obtain ⟨b, pos, b', pos', -, -, hread⟩ := docs_read_back (by decide) hrun he hdoc
    (by simp [hkey]) (by rw [hkey]; decide)
  exact ⟨_, hread⟩

/-- A document with an empty key is appended, and cannot be read. -/
theorem empty_key_not_read_back :
    let doc : Doc := { key := [], metadata := [], body := [98], timestamp := 9, seqnum := 2 }
    let appended := docioAppendDoc sampleConfig sampleCodec emptyRun.state doc false false
    docioReadDoc sampleConfig sampleCodec appended.2.file appended.1 =
      .error .fileCorruption := by
  decide +kernel

end ForestDB.Docio

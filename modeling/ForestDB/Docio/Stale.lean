import ForestDB.Docio.Roundtrip
import ForestDB.Lib.Tiles

/-!
Stale regions of documents (`filemgr_actual_stale_regions`, `_fdb_get_docsize`).

When a document is no longer needed, the bytes it occupies are computed from its
offset and its length structure by following the links of its blocks. A piece
that reaches the end of the payload of a block is charged with the meta area of
that block. When the handle leaves a block without filling it, it marks the rest
as stale.

In a file of the current version the regions of all documents, the rests that
were marked and the unused rest of the current block tile the blocks that the
handle got. In a file of an old version they do not, since the length of a
region is computed there from an end that leaves the markers out.
-/

namespace ForestDB.Docio

open Bytes Pages Spans List

/-! ### The regions of a document -/

variable (cfg : DocConfig)

/-- `filemgr_actual_stale_length` -/
def filemgrActualStaleLength (offset length : Nat) : Nat :=
  let startBid := offset / cfg.blocksize
  let endBid := (offset + length) / cfg.blocksize
  let actualLen := length + (endBid - startBid)
  if (offset + actualLen) % cfg.blocksize = cfg.blocksize - 1 then actualLen + 1 else actualLen

/-- The loop of `filemgr_actual_stale_regions`. It ends here where there is no next block; the
source would go on with what it finds in its buffer. -/
def staleRegionsFrom (cfg : DocConfig) (file : DocFile) : Nat → Nat → Nat → Nat → List Span
  | 0, _, _, _ => []
  | fuel + 1, curBid, curPos, remaining =>
    if remaining = 0 then []
    else
      let pos := curBid * cfg.blocksize + curPos
      let spaceInBlock := cfg.payload - curPos
      if spaceInBlock ≤ remaining then
        let region := (pos, cfg.blocksize - curPos)
        let remaining := remaining - spaceInBlock
        if remaining = 0 then [region]
        else
          match (file.blocks curBid).nextBid with
          | none => [region]
          | some next => region :: staleRegionsFrom cfg file fuel next 0 remaining
      else [(pos, remaining)]

/-- `filemgr_actual_stale_regions`. Every pass but the first takes a whole payload. -/
def filemgrActualStaleRegions (file : DocFile) (offset length : Nat) :
    List Span :=
  if cfg.nonConsecutive then
    staleRegionsFrom cfg file (length + 2) (offset / cfg.blocksize) (offset % cfg.blocksize) length
  else [(offset, filemgrActualStaleLength cfg offset length)]

/-- `filemgr_add_stale_block`, with the newest region first. -/
def filemgrAddStaleBlock (staleList : List Span) (region : Span) : List Span :=
  match staleList with
  | [] => [region]
  | item :: items =>
    if stop item = region.1 then (item.1, item.2 + region.2) :: items
    else region :: item :: items

/-- `filemgr_mark_stale` -/
def filemgrMarkStale (file : DocFile) (staleList : List Span)
    (offset length : Nat) : List Span :=
  if length = 0 then staleList
  else (filemgrActualStaleRegions cfg file offset length).foldl filemgrAddStaleBlock staleList

/-! ### What appending marks -/

/-- The rest of a block that is left. -/
def markRest (file : DocFile) (staleList : List Span) (curblock curpos : Nat) :
    List Span :=
  if curpos < cfg.blocksize then
    filemgrMarkStale cfg file staleList (cfg.blocksize * curblock + curpos) (cfg.payload - curpos)
  else staleList

/-- The current block is left if it cannot be written any more. -/
def ensureBlockMarks (st : DocState) (staleList : List Span) : List Span :=
  match st.curblock with
  | none => staleList
  | some bid =>
    if st.file.writable bid then staleList
    else markRest cfg st.file staleList bid st.curpos

/-- The current block is left if the document does not start in it. -/
def appendSpilledMarks (curblock : Nat) (st : DocState) (buf : List UInt8)
    (staleList : List Span) : List Span :=
  let (_, startHere, st') := allocSpilled cfg curblock buf.length st
  if startHere then staleList
  else markRest cfg st'.file staleList curblock st.curpos

/-- The stale list after `docio_append_doc_raw`. -/
def docioAppendDocRawMarks (st : DocState) (buf : List UInt8)
    (staleList : List Span) : List Span :=
  let staleList := ensureBlockMarks cfg st staleList
  let (curblock, st) := ensureBlock st
  if buf.length ≤ cfg.payload - st.curpos then staleList
  else appendSpilledMarks cfg curblock st buf staleList

/-! ### Runs -/

/-- `_fdb_get_docsize` -/
def fdbGetDocsize (len : DocLength) : Nat :=
  len.keylen + len.metalen + len.bodylenOndisk + lengthSize + 4 + 8 + 4

/-- `DOCIO_COMMIT_MARK_SIZE` -/
def docioCommitMarkSize : Nat := lengthSize + 8

/-- The size that a region is computed from: that of a document is in its length structure. -/
def staleSize (file : DocFile) (offset : Nat) : Item → Nat
  | .mark _ => docioCommitMarkSize
  | _ =>
    match docioReadLength cfg file offset with
    | .ok (bytes, _) => fdbGetDocsize (DocLength.decode bytes)
    | .error _ => 0

/-- The unused rest of the current block. The meta area belongs to it as long as there is room in
the payload. -/
def DocState.rest (st : DocState) : List Span :=
  match st.curblock with
  | none => []
  | some bid =>
    if st.curpos = cfg.payload then []
    else [(bid * cfg.blocksize + st.curpos, cfg.blocksize - st.curpos)]

/-- A run with the regions that the handle marked when it left a block. -/
structure StaleRun extends DocRun where
  staleList : List Span

/-- The regions of everything that was appended, computed in the file as it is now. -/
def StaleRun.regions (run : StaleRun) : List Span :=
  run.log.flatMap fun entry =>
    filemgrActualStaleRegions cfg run.state.file entry.1
      (staleSize cfg run.state.file entry.1 entry.2)

def StaleRun.append (cfg : DocConfig) (codec : DocCodec) (run : StaleRun) (item : Item) :
    StaleRun where
  toDocRun := run.toDocRun.append cfg codec item
  staleList := docioAppendDocRawMarks cfg run.state (item.bytes codec) run.staleList

def StaleRun.step (codec : DocCodec) (run : StaleRun) :
    DocEvent → Option (StaleRun × Nat)
  | .append item => some (run.append cfg codec item, (item.append cfg codec run.state).1)
  | .reset => some ({ run with state := { run.state with curblock := none } }, 0)
  | .other file => some ({ run with state := { run.state with file := file } }, 0)

/-- The handle is not reset: it leaves its blocks in the course of appending. -/
def StaleRun.Ok (codec : DocCodec) (run : StaleRun) (event : DocEvent) : Prop :=
  event ≠ .reset ∧ event.Ok codec run.toDocRun

def StaleRun.Init (run : StaleRun) : Prop :=
  run.toDocRun.Init ∧ run.staleList = []

/-- Regions, marked rests and the rest of the current block tile the blocks of the handle. -/
def StaleRun.Tiled (run : StaleRun) : Prop :=
  Tiles (run.regions cfg ++ run.staleList ++ run.state.rest cfg)
    fun x => x / cfg.blocksize ∈ run.state.owned

/-! ### Marking -/

section Mark

variable {cfg} {file : DocFile} {staleList : List Span} {curblock curpos : Nat}

theorem load_addStaleBlock (staleList : List Span) (region : Span) (x : Nat) :
    load (filemgrAddStaleBlock staleList region) x = load staleList x + load [region] x := by
  unfold filemgrAddStaleBlock
  cases staleList with
  | nil => rw [load_nil, Nat.zero_add]
  | cons item items =>
    obtain ⟨a, n⟩ := item
    obtain ⟨pos, len⟩ := region
    change load (if a + n = pos then _ else _) x = _
    split
    · rename_i htouch
      have hcut := load_cut a n len x
      rw [htouch] at hcut
      rw [load_cons, load_cons (a, n) items, hcut]
      omega
    · rw [load_cons, Nat.add_comm]

theorem staleRegions_rest (cfg : DocConfig) (file : DocFile) (fuel : Nat)
    (hpos : curpos < cfg.payload) :
    staleRegionsFrom cfg file (fuel + 1) curblock curpos (cfg.payload - curpos) =
      [(curblock * cfg.blocksize + curpos, cfg.blocksize - curpos)] := by
  rw [staleRegionsFrom, if_neg (by omega)]
  simp

theorem load_markRest {st : DocState} (hmode : cfg.nonConsecutive = true) (hn : 0 < cfg.payload)
    (hcur : st.curblock = some curblock) (hpos : st.curpos ≤ cfg.payload) (x : Nat) :
    load (markRest cfg file staleList curblock st.curpos) x =
      load staleList x + load (st.rest cfg) x := by
  have hblock := payload_lt hn
  obtain ⟨hdiv, hmod⟩ := offset_div hpos hblock
  simp only [markRest, DocState.rest, hcur, filemgrMarkStale]
  rw [if_pos (by omega)]
  by_cases hfull : st.curpos = cfg.payload
  · rw [if_pos (by omega), if_pos hfull, load_nil, Nat.add_zero]
  · rw [if_neg (by omega), if_neg hfull, filemgrActualStaleRegions, if_pos hmode,
      Nat.mul_comm cfg.blocksize, hdiv, hmod, staleRegions_rest cfg file _ (by omega),
      foldl_cons, foldl_nil, load_addStaleBlock]

end Mark

/-! ### Appending -/

/-- The blocks as regions, with their meta areas. -/
def wholeBlocks (cfg : DocConfig) (bids : List Nat) : List Span :=
  bids.map fun b => (b * cfg.blocksize, cfg.blocksize)

section Append

variable {cfg} {st : DocState} {buf : List UInt8}

/-- The text of `size` bytes that starts with the first of the blocks occupies them, apart from the
rest of the current one. -/
structure Laid (cfg : DocConfig) (first : Nat) (bids : List Nat) (size : Nat) (st : DocState)
    (regions : List Span) : Prop where
  follows : ∀ fuel, size < fuel → staleRegionsFrom cfg st.file fuel first 0 size = regions
  fills : ∀ x, load regions x + load (st.rest cfg) x = load (wholeBlocks cfg bids) x

theorem Laid.last {bid size : Nat} (hn : 0 < cfg.payload) (hcur : st.curblock = some bid)
    (hpos : st.curpos = size) (hroom : size ≤ cfg.payload) :
    ∃ regions, Laid cfg bid [bid] size st regions := by
  have hblock := payload_lt hn
  rcases hroom.lt_or_eq with hless | hfull
  · -- The block is not full: the meta area belongs to the rest.
    have hrest : ∀ x, load [(bid * cfg.blocksize, size)] x + load (st.rest cfg) x =
        load (wholeBlocks cfg [bid]) x := by
      intro x
      have hsum : cfg.blocksize = size + (cfg.blocksize - size) := by omega
      simp only [DocState.rest, hcur, hpos]
      rw [if_neg hless.ne, ← load_cut, ← hsum]
      rfl
    rcases Nat.eq_zero_or_pos size with rfl | hsize
    · refine ⟨[], ?_, ?_⟩
      · intro fuel _
        cases fuel with
        | zero => rfl
        | succ fuel => rw [staleRegionsFrom, if_pos rfl]
      · intro x
        rw [← hrest x, load_nil, load_empty]
    · refine ⟨_, ?_, hrest⟩
      intro fuel hfuel
      obtain ⟨fuel, rfl⟩ := Nat.exists_eq_add_one_of_ne_zero (by omega : fuel ≠ 0)
      rw [staleRegionsFrom, if_neg hsize.ne']
      simp only [Nat.add_zero]
      rw [if_neg (by omega)]
  · refine ⟨[(bid * cfg.blocksize, cfg.blocksize)], ?_, ?_⟩
    · intro fuel hfuel
      obtain ⟨fuel, rfl⟩ := Nat.exists_eq_add_one_of_ne_zero (by omega : fuel ≠ 0)
      have hrest := @staleRegions_rest bid 0 cfg st.file fuel hn
      rwa [← hfull] at hrest
    · intro x
      simp only [DocState.rest, hcur, hpos]
      rw [if_pos hfull]
      rfl

theorem Laid.more {bid next size : Nat} {bids : List Nat} {regions : List Span}
    (h : Laid cfg next (next :: bids) size st regions) (hn : 0 < cfg.payload)
    (hnext : (st.file.blocks bid).nextBid = some next) :
    Laid cfg bid (bid :: next :: bids) (cfg.payload + size) st
      ((bid * cfg.blocksize, cfg.blocksize) :: regions) := by
  constructor
  case follows =>
    intro fuel hfuel
    obtain ⟨fuel, rfl⟩ := Nat.exists_eq_add_one_of_ne_zero (by omega : fuel ≠ 0)
    have hrest := h.follows fuel (by omega)
    rw [staleRegionsFrom, if_neg (by omega)]
    simp only [Nat.sub_zero, Nat.add_zero, Nat.le_add_right, if_true, Nat.add_sub_cancel_left,
      hnext, hrest]
    split
    · rename_i hzero
      rw [hzero] at hrest
      cases fuel with
      | zero => rw [← hrest, staleRegionsFrom]
      | succ fuel => rw [← hrest, staleRegionsFrom, if_pos rfl]
    · rfl
  case fills =>
    intro x
    have hfills := h.fills x
    have hwhole : load (wholeBlocks cfg (bid :: next :: bids)) x =
        load [(bid * cfg.blocksize, cfg.blocksize)] x +
          load (wholeBlocks cfg (next :: bids)) x := load_cons _ _ _
    rw [load_cons _ regions]
    omega

theorem writeBlocks_laid (cfg : DocConfig) (buf : List UInt8) (hn : 0 < cfg.payload)
    (hmode : cfg.nonConsecutive = true) :
    ∀ (bids : List Nat) (bid offset remainsize : Nat) (st : DocState),
    (bid :: bids).Nodup → bids.length * cfg.payload ≤ remainsize →
    remainsize ≤ (bids.length + 1) * cfg.payload →
    ∃ regions, Laid cfg bid (bid :: bids) remainsize
      (writeBlocks cfg buf (bid :: bids) offset remainsize st) regions := by
  intro bids
  induction bids with
  | nil =>
    intro bid offset remainsize st _ _ hmax
    rw [length_nil, Nat.one_mul] at hmax
    rw [writeBlocks]
    split
    · rename_i hfull
      exact Laid.last hn rfl (hfull.antisymm hmax) hmax
    · exact Laid.last hn rfl rfl hmax
  | cons next bids ih =>
    intro bid offset remainsize st hnodup hmin hmax
    obtain ⟨hbid, hnodup⟩ := nodup_cons.mp hnodup
    rw [length_cons, Nat.succ_mul] at hmin
    rw [length_cons, Nat.succ_mul] at hmax
    have hfull : cfg.payload ≤ remainsize := by omega
    rw [writeBlocks, if_pos hfull]
    generalize hst1 : ({ st with
      file := (st.file.writeMeta cfg bid (next :: bids).head?).write bid 0
        ((buf.drop offset).take cfg.payload)
      curblock := some bid
      curpos := cfg.payload }) = st1
    obtain ⟨regions, hlaid⟩ := ih next ((offset + cfg.payload) % 2 ^ 32)
      (remainsize - cfg.payload) st1 hnodup (by omega) (by omega)
    have hblocks := (writeBlocks_frame cfg buf (next :: bids) ((offset + cfg.payload) % 2 ^ 32)
      (remainsize - cfg.payload) st1).2.2.2 bid hbid
    have hlink : (st1.file.blocks bid).nextBid = some next := by
      rw [← hst1, DocFile.writeMeta]
      simp [hmode]
    have hmore := @Laid.more cfg _ bid _ _ _ _ hlaid hn (by rw [hblocks, hlink])
    rw [Nat.add_sub_cancel' hfull] at hmore
    exact ⟨_, hmore⟩

theorem rest_newBlock (hn : 0 < cfg.payload) :
    st.newBlock.2.rest cfg = wholeBlocks cfg [st.alloc.1] := by
  change (if 0 = cfg.payload then [] else _) = _
  rw [if_neg hn.ne]
  rfl

theorem room_of_startHere {curblock size : Nat} {bids : List Nat} {st' : DocState}
    (hmode : cfg.nonConsecutive = true)
    (h : allocSpilled cfg curblock size st = (bids, true, st')) : st.curpos < cfg.payload := by
  rw [allocSpilled, if_pos hmode] at h
  simp only [allocNonConsecutive] at h
  split at h
  · have hroom := (Prod.mk.inj (Prod.mk.inj h).2).1
    rw [decide_eq_true_iff] at hroom
    omega
  · have hroom := (Prod.mk.inj (Prod.mk.inj h).2).1
    rw [Bool.and_eq_true, decide_eq_true_iff] at hroom
    omega

section

variable (hn : 0 < cfg.payload) (hmode : cfg.nonConsecutive = true)
include hn hmode

theorem ensureBlock_accounts (h : st.Sound cfg) (staleList : List Span) :
    ∃ bids, Gained st bids (ensureBlock st).2 ∧ ∀ x,
      load (ensureBlockMarks cfg st staleList) x + load ((ensureBlock st).2.rest cfg) x =
        load staleList x + load (st.rest cfg) x + load (wholeBlocks cfg bids) x := by
  have hgrown := alloc_grown h
  have hnew : Gained st [st.alloc.1] st.newBlock.2 := ⟨hgrown.owned, hgrown.nodup, hgrown.fresh⟩
  unfold ensureBlock ensureBlockMarks
  cases hcur : st.curblock with
  | none =>
    refine ⟨_, hnew, ?_⟩
    intro x
    have hrest : st.rest cfg = [] := by
      rw [DocState.rest, hcur]
    rw [rest_newBlock hn, hrest, load_nil, Nat.add_zero]
  | some bid =>
    simp only
    split
    · exact ⟨[], .none st, fun x => rfl⟩
    · refine ⟨_, hnew, ?_⟩
      intro x
      rw [rest_newBlock hn, load_markRest hmode hn hcur (h.current bid hcur).2.1]

/-- A document that fits takes its bytes from the rest, and the meta area with the last of them. -/
theorem append_fitting_accounts {curblock : Nat} {st' : DocState}
    (hcur : st.curblock = some curblock) (hcur' : st'.curblock = some curblock)
    (hpos : st'.curpos = st.curpos + buf.length) (hne : buf ≠ [])
    (hroom : buf.length ≤ cfg.payload - st.curpos) (x : Nat) :
    load (filemgrActualStaleRegions cfg st'.file (curblock * cfg.blocksize + st.curpos)
        buf.length) x + load (st'.rest cfg) x = load (st.rest cfg) x := by
  have hsize := length_pos_of_ne_nil hne
  have hblock := payload_lt hn
  obtain ⟨hdiv, hmod⟩ := offset_div (by omega : st.curpos ≤ cfg.payload) hblock
  rw [filemgrActualStaleRegions, if_pos hmode, hdiv, hmod]
  simp only [DocState.rest, hcur, hcur', hpos]
  rw [if_neg (by omega : st.curpos ≠ cfg.payload)]
  rcases hroom.lt_or_eq with hless | hfull
  · rw [if_neg (by omega), staleRegionsFrom, if_neg hsize.ne']
    have hsum : cfg.blocksize - st.curpos =
        buf.length + (cfg.blocksize - (st.curpos + buf.length)) := by omega
    rw [if_neg (by omega), hsum, load_cut, Nat.add_assoc (curblock * _)]
  · rw [if_pos (by omega), hfull, staleRegions_rest cfg _ _ (by omega), load_nil, Nat.add_zero]

/-- A document that does not fit takes the whole rest, or leaves it to be marked. The new blocks
hold what remains of it. -/
theorem appendSpilled_accounts {curblock : Nat} (h : st.Sound cfg)
    (hcur : st.curblock = some curblock) (hroom : cfg.payload - st.curpos < buf.length)
    (staleList : List Span) :
    ∃ bids, Gained st bids (appendSpilled cfg curblock st buf).2 ∧ ∀ x,
      load (filemgrActualStaleRegions cfg (appendSpilled cfg curblock st buf).2.file
          (appendSpilled cfg curblock st buf).1 buf.length) x +
        load (appendSpilledMarks cfg curblock st buf staleList) x +
        load ((appendSpilled cfg curblock st buf).2.rest cfg) x =
      load staleList x + load (st.rest cfg) x + load (wholeBlocks cfg bids) x := by
  have hblock := payload_lt hn
  obtain ⟨howned, hpos, -⟩ := h.current curblock hcur
  obtain ⟨first, rest, startHere, st', halloc, hspill⟩ :=
    allocSpilled_spilled curblock h hn hroom
  have hgrown := hspill.grown
  have hlater : ∀ {st'' : DocState}, st''.owned = st'.owned → Gained st (first :: rest) st'' :=
    fun heq => ⟨fun b => by rw [heq, hgrown.owned], hgrown.nodup, hgrown.fresh⟩
  simp only [appendSpilled, appendSpilledMarks, halloc]
  cases startHere with
  | true =>
    obtain ⟨hmin, hmax⟩ := hspill.here rfl
    generalize hst1 : ({ st' with
      file := (st'.file.writeMeta cfg curblock (first :: rest).head?).write curblock st.curpos
        (buf.take (cfg.payload - st.curpos)) }) = st1
    have howned1 : st1.owned = st'.owned := by rw [← hst1]
    have hlink : (st1.file.blocks curblock).nextBid = some first := by
      rw [← hst1, DocFile.writeMeta]
      simp [hmode]
    obtain ⟨regions, hlaid⟩ := writeBlocks_laid cfg buf hn hmode rest first
      (cfg.payload - st.curpos) (buf.length - (cfg.payload - st.curpos)) st1 hgrown.nodup hmin hmax
    obtain ⟨hframe, -, -, hblocks⟩ := writeBlocks_frame cfg buf (first :: rest)
      (cfg.payload - st.curpos) (buf.length - (cfg.payload - st.curpos)) st1
    simp only [if_true]
    generalize writeBlocks cfg buf (first :: rest) (cfg.payload - st.curpos)
      (buf.length - (cfg.payload - st.curpos)) st1 = st2 at *
    refine ⟨_, hlater (hframe.trans howned1), ?_⟩
    intro x
    have hstart := room_of_startHere hmode halloc
    obtain ⟨hdiv, hmod⟩ := offset_div hpos hblock
    have hnext : (st2.file.blocks curblock).nextBid = some first := by
      rw [hblocks curblock fun hin => hgrown.fresh curblock hin howned, hlink]
    have hrest : st.rest cfg =
        [(curblock * cfg.blocksize + st.curpos, cfg.blocksize - st.curpos)] := by
      simp only [DocState.rest, hcur]
      exact if_neg hstart.ne
    rw [filemgrActualStaleRegions, if_pos hmode, hdiv, hmod, staleRegionsFrom, if_neg (by omega)]
    simp only [hnext]
    rw [if_pos hroom.le, if_neg (by omega), hlaid.follows _ (by omega), load_cons, ← hrest,
      ← hlaid.fills x]
    omega
  | false =>
    obtain ⟨hmin, hmax⟩ := hspill.start rfl
    obtain ⟨regions, hlaid⟩ := writeBlocks_laid cfg buf hn hmode rest first 0 buf.length st'
      hgrown.nodup hmin hmax
    obtain ⟨hframe, -⟩ := writeBlocks_frame cfg buf (first :: rest) 0 buf.length st'
    simp only [Bool.false_eq_true, if_false, headD_cons]
    refine ⟨_, hlater hframe, ?_⟩
    intro x
    obtain ⟨hdiv, hmod⟩ := offset_div (Nat.zero_le cfg.payload) hblock
    rw [Nat.add_zero] at hdiv hmod
    rw [filemgrActualStaleRegions, if_pos hmode, hdiv, hmod, hlaid.follows _ (by omega),
      load_markRest hmode hn hcur hpos, ← hlaid.fills x]
    omega

/-- The new document, the marks and the unused rest account for what was unused before and for the
blocks that the handle got. -/
theorem docioAppendDocRaw_accounts (h : st.Sound cfg) (hne : buf ≠ []) (staleList : List Span) :
    ∃ bids, Gained st bids (docioAppendDocRaw cfg st buf).2 ∧ ∀ x,
      load (filemgrActualStaleRegions cfg (docioAppendDocRaw cfg st buf).2.file
          (docioAppendDocRaw cfg st buf).1 buf.length) x +
        load (docioAppendDocRawMarks cfg st buf staleList) x +
        load ((docioAppendDocRaw cfg st buf).2.rest cfg) x =
      load staleList x + load (st.rest cfg) x + load (wholeBlocks cfg bids) x := by
  have hensured := ensureBlock_spec h
  obtain ⟨bids, hgained, hbalance⟩ := ensureBlock_accounts hn hmode h staleList
  unfold docioAppendDocRaw docioAppendDocRawMarks
  rcases hblock : ensureBlock st with ⟨curblock, st1⟩
  rw [hblock] at hensured hgained hbalance
  obtain ⟨hsound, hcur, -⟩ : st1.Sound cfg ∧ st1.curblock = some curblock ∧ _ := hensured
  simp only at hbalance ⊢
  split
  case isTrue hroom =>
    refine ⟨bids, ⟨hgained.owned, hgained.nodup, hgained.fresh⟩, ?_⟩
    intro x
    have hfit := @append_fitting_accounts cfg st1 buf hn hmode curblock { st1 with
      file := docioFillZero cfg ((st1.file.writeMeta cfg curblock none).write curblock st1.curpos
        buf) curblock (st1.curpos + buf.length)
      curpos := st1.curpos + buf.length } hcur hcur rfl hne hroom x
    have := hbalance x
    dsimp only at hfit ⊢
    omega
  case isFalse hroom =>
    obtain ⟨bids', hgained', hbalance'⟩ := appendSpilled_accounts hn hmode hsound hcur
      (Nat.not_le.mp hroom) (ensureBlockMarks cfg st staleList)
    refine ⟨bids ++ bids', hgained.append hgained', ?_⟩
    intro x
    have hsum : load (wholeBlocks cfg (bids ++ bids')) x =
        load (wholeBlocks cfg bids) x + load (wholeBlocks cfg bids') x := by
      rw [wholeBlocks, map_append, load_append]
      rfl
    have := hbalance x
    have := hbalance' x
    omega

end

end Append

/-! ### Whole runs -/

section Runs

variable {cfg} {codec : DocCodec} {run run' : StaleRun} {flag : UInt8} {doc : Doc}

theorem Item.append_eq (cfg : DocConfig) (codec : DocCodec) (st : DocState) (item : Item) :
    item.append cfg codec st = docioAppendDocRaw cfg st (item.bytes codec) := by
  cases item <;> rfl

theorem fdbGetDocsize_docLength (h : doc.Fits codec) :
    fdbGetDocsize (docLength codec doc flag) = (docBytes codec doc flag).length := by
  rw [docBytes_eq h, length_append, length_docContent, length_encodeLE]
  simp only [fdbGetDocsize, docLength]
  omega

section

variable {st : DocState} {b pos b' pos' : Nat} (hn : lengthSize ≤ cfg.payload)
  (hsound : st.Sound cfg)
include hn hsound

theorem staleSize_document (hfits : doc.Fits codec)
    (h : Walk (st.view cfg) cfg.payload b pos (docBytes codec doc flag) b' pos') :
    ∃ offset, docioReadLength cfg st.file (b * cfg.blocksize + pos) =
      .ok ((docLength codec doc flag).encode codec, offset) := by
  have hn' : 0 < cfg.payload := Nat.lt_of_lt_of_le (by decide) hn
  rw [docBytes_eq hfits, docContent] at h
  simp only [append_assoc] at h
  obtain ⟨c, q, hfirst, -⟩ := h.split
  exact ⟨_, docioReadLength_walk hsound hn (payload_lt hn') length_encode hfirst⟩

theorem staleSize_stored {item : Item} (hfits : item.Fits codec)
    (h : Walk (st.view cfg) cfg.payload b pos (item.bytes codec) b' pos') :
    staleSize cfg st.file (b * cfg.blocksize + pos) item = (item.bytes codec).length := by
  have hdocument : ∀ {doc : Doc} {flag : UInt8}, doc.Fits codec →
      Walk (st.view cfg) cfg.payload b pos (docBytes codec doc flag) b' pos' →
      (match docioReadLength cfg st.file (b * cfg.blocksize + pos) with
        | .ok (bytes, _) => fdbGetDocsize (DocLength.decode bytes)
        | .error _ => 0) = (docBytes codec doc flag).length := by
    intro doc flag hdoc hwalk
    obtain ⟨offset, hread⟩ := staleSize_document hn hsound hdoc hwalk
    rw [hread]
    simp only [decode_encode hdoc.length, fdbGetDocsize_docLength hdoc]
  cases item with
  | doc d deleted txnEnabled => exact hdocument hfits h
  | system d => exact hdocument hfits h
  | mark docOffset =>
    rfl

end

theorem staleRegionsFrom_later (hmode : cfg.nonConsecutive = true) {st st' : DocState}
    (hle : (st.view cfg).Le (st'.view cfg)) {xs : List UInt8} {b pos b' pos' : Nat}
    (h : Walk (st.view cfg) cfg.payload b pos xs b' pos') (fuel : Nat) :
    staleRegionsFrom cfg st'.file fuel b pos xs.length =
      staleRegionsFrom cfg st.file fuel b pos xs.length := by
  have hnextBid : ∀ {st : DocState} {b c : Nat}, (st.view cfg).next b = some c →
      (st.file.blocks b).nextBid = some c := by
    intro st b c hnext
    have hlink := next_spec hnext
    rwa [nextBid, if_pos hmode] at hlink
  induction h generalizing fuel with
  | @here b pos page xs hpage hroom hxs =>
    cases fuel with
    | zero => rfl
    | succ fuel =>
      simp only [staleRegionsFrom]
      split
      · rfl
      · split
        · rw [if_pos (by omega), if_pos (by omega)]
        · rfl
  | @cross b pos c b' pos' page us vs hpage hroom hus hnext hvs hwalk ih =>
    cases fuel with
    | zero => rfl
    | succ fuel =>
      have hspace : us.length + vs.length - (cfg.payload - pos) = vs.length := by omega
      simp [staleRegionsFrom, hspace, hnextBid hnext, hnextBid (hle.next hnext), ih]

section

variable (hn : lengthSize ≤ cfg.payload) (hmode : cfg.nonConsecutive = true)
  (hstored : run.toDocRun.Stored cfg codec)
variable {st : DocState} (hsound : st.Sound cfg) (hle : (run.state.view cfg).Le (st.view cfg))
include hn hmode hstored hsound hle

theorem entry_regions_later {entry : Nat × Item} (hentry : entry ∈ run.log) :
    filemgrActualStaleRegions cfg st.file entry.1 (staleSize cfg st.file entry.1 entry.2) =
      filemgrActualStaleRegions cfg run.state.file entry.1
        (staleSize cfg run.state.file entry.1 entry.2) := by
  obtain ⟨offset, item⟩ := entry
  have hn' : 0 < cfg.payload := Nat.lt_of_lt_of_le (by decide) hn
  obtain ⟨hfits, b, pos, b', pos', rfl, hwalk⟩ := hstored.stored offset item hentry
  obtain ⟨hdiv, hmod⟩ := offset_div (b := b) hwalk.start_le (payload_lt hn')
  rw [staleSize_stored hn hsound hfits (hwalk.mono hle),
    staleSize_stored hn hstored.sound hfits hwalk]
  simp only [filemgrActualStaleRegions, hmode, hdiv, hmod]
  exact staleRegionsFrom_later hmode hle hwalk _

theorem regions_later :
    (run.log.flatMap fun entry =>
      filemgrActualStaleRegions cfg st.file entry.1 (staleSize cfg st.file entry.1 entry.2)) =
        run.regions cfg :=
  flatMap_congr fun _ hentry => entry_regions_later hn hmode hstored hsound hle hentry

end

/-- What was appended is stored, and every byte of the blocks of the handle is accounted for. -/
structure StaleRun.Accounted (cfg : DocConfig) (codec : DocCodec) (run : StaleRun) : Prop where
  stored : run.toDocRun.Stored cfg codec
  balance : ∃ bids, bids.Nodup ∧ (∀ b, b ∈ bids ↔ b ∈ run.state.owned) ∧ ∀ x,
    load (run.regions cfg) x + load run.staleList x + load (run.state.rest cfg) x =
      load (wholeBlocks cfg bids) x

theorem Item.bytes_ne_nil {item : Item} (hfits : item.Fits codec) : item.bytes codec ≠ [] := by
  have hdocument : ∀ {doc : Doc} {flag : UInt8}, doc.Fits codec → docBytes codec doc flag ≠ [] := by
    intro doc flag hdoc
    apply ne_nil_of_length_pos
    rw [← fdbGetDocsize_docLength hdoc, fdbGetDocsize]
    omega
  cases item with
  | doc d deleted txnEnabled => exact hdocument hfits
  | system d => exact hdocument hfits
  | mark docOffset =>
    apply ne_nil_of_length_pos
    simp only [Item.bytes, markBytes, length_append, length_encodeBE]
    omega

section

variable (h : run.Accounted cfg codec) (hn : lengthSize ≤ cfg.payload)
  (hmode : cfg.nonConsecutive = true)
include h hn hmode

theorem StaleRun.Accounted.append {item : Item} (hfits : item.Fits codec) :
    (run.append cfg codec item).Accounted cfg codec := by
  have hn' : 0 < cfg.payload := Nat.lt_of_lt_of_le (by decide) hn
  have hsound := h.stored.sound
  have hstored := h.stored.append hn' hfits
  have happended := Item.append_appended hsound hn' hfits
  obtain ⟨bids, hnodup, howned, hbalance⟩ := h.balance
  obtain ⟨bids', hgained, hbalance'⟩ := docioAppendDocRaw_accounts hn' hmode hsound
    (Item.bytes_ne_nil hfits) run.staleList
  rw [← Item.append_eq] at hgained hbalance'
  refine ⟨hstored, bids' ++ bids, ?_, ?_, ?_⟩
  · apply nodup_append.mpr
    refine ⟨hgained.nodup, hnodup, ?_⟩
    rintro a ha b hb rfl
    exact hgained.fresh a ha ((howned a).mp hb)
  · intro b
    rw [mem_append, howned]
    exact (hgained.owned b).symm
  · intro x
    obtain ⟨b, pos, b', pos', hoffset, hwalk⟩ := happended.stored
    have hregions : (run.append cfg codec item).regions cfg =
        filemgrActualStaleRegions cfg (item.append cfg codec run.state).2.file
          (item.append cfg codec run.state).1 (item.bytes codec).length ++ run.regions cfg := by
      have hlater := regions_later hn hmode h.stored happended.sound happended.kept
      have hsize := staleSize_stored hn happended.sound hfits hwalk
      rw [← hoffset] at hsize
      rw [← hlater, ← hsize]
      rfl
    have hsum : load (wholeBlocks cfg (bids' ++ bids)) x =
        load (wholeBlocks cfg bids') x + load (wholeBlocks cfg bids) x := by
      rw [wholeBlocks, map_append, load_append]
      rfl
    have hmarks : (run.append cfg codec item).staleList =
        docioAppendDocRawMarks cfg run.state (item.bytes codec) run.staleList := rfl
    have hstate : (run.append cfg codec item).state = (item.append cfg codec run.state).2 := rfl
    have := hbalance x
    have := hbalance' x
    rw [hregions, hmarks, hstate, load_append]
    omega

theorem StaleRun.Accounted.other {file : DocFile}
    (hok : (DocEvent.other file).Ok codec run.toDocRun) :
    StaleRun.Accounted cfg codec { run with state := { run.state with file := file } } := by
  have hstored := h.stored.other hok
  have hle := DocRun.other_le cfg hok
  obtain ⟨bids, hnodup, howned, hbalance⟩ := h.balance
  refine ⟨hstored, bids, hnodup, howned, ?_⟩
  intro x
  have hlater := regions_later hn hmode h.stored hstored.sound hle
  rw [StaleRun.regions]
  rw [hlater]
  exact hbalance x

end

theorem StaleRun.Init.accounted (h : run.Init) : run.Accounted cfg codec := by
  obtain ⟨hinit, hstale⟩ := h
  have hstored : run.toDocRun.Stored cfg codec := hinit.stored
  obtain ⟨hlog, hcur, howned, -⟩ := hinit
  refine ⟨hstored, [], nodup_nil, by simp [howned], ?_⟩
  intro x
  rw [StaleRun.regions, DocState.rest, hlog, hcur, hstale]
  rfl

theorem StaleRun.Accounted.step (h : run.Accounted cfg codec) (hn : lengthSize ≤ cfg.payload)
    (hmode : cfg.nonConsecutive = true) {event : DocEvent} (hok : run.Ok codec event) {offset : Nat}
    (hstep : run.step cfg codec event = some (run', offset)) : run'.Accounted cfg codec := by
  obtain ⟨hreset, hok⟩ := hok
  cases event with
  | append item =>
    obtain ⟨rfl, -⟩ := Prod.mk.inj (Option.some.inj hstep)
    exact h.append hn hmode hok
  | reset => exact absurd rfl hreset
  | other file =>
    obtain ⟨rfl, -⟩ := Prod.mk.inj (Option.some.inj hstep)
    exact h.other hn hmode hok

theorem StaleRun.Accounted.tiled (h : run.Accounted cfg codec) (hn : 0 < cfg.payload) :
    run.Tiled cfg := by
  have hblock := payload_lt hn
  obtain ⟨bids, hnodup, howned, hbalance⟩ := h.balance
  apply tiles_of_load
  intro x
  rw [load_append, load_append, hbalance x, wholeBlocks, load_blocks (by omega) hnodup]
  exact if_congr (howned _) rfl rfl

/-- In a file of the current version, the regions of everything that was appended, computed at any
later time, tile the blocks of the handle together with the rests that it marked and the rest of its
current block. -/
theorem stale_regions_tile (hn : lengthSize ≤ cfg.payload) (hmode : cfg.nonConsecutive = true)
    (hrun : Reachable StaleRun.Init (StaleRun.step cfg codec) (StaleRun.Ok codec) run) :
    run.Tiled cfg := by
  have haccounted : run.Accounted cfg codec :=
    Reachable.invariant (StaleRun.Accounted cfg codec) (fun _ => StaleRun.Init.accounted)
      (fun _ _ _ _ h hok hstep => h.step hn hmode hok hstep) hrun
  exact haccounted.tiled (Nat.lt_of_lt_of_le (by decide) hn)

end Runs

/-- An empty file whose handle has not appended anything. -/
def emptyStaleRun : StaleRun := { emptyRun with staleList := [] }

theorem long_doc_tiles :
    (emptyStaleRun.append sampleConfig sampleCodec (.doc longDoc true false)).Tiled
      sampleConfig := by
  refine @stale_regions_tile _ sampleCodec _ (by decide) rfl ?_
  apply Reachable.next (.start ⟨emptyRun_init, rfl⟩) (i := .append (.doc longDoc true false)) _ rfl
  exact ⟨nofun, longDoc_fits⟩

/-- In a file of an old version the document fills the blocks 4 and 5 and has its last byte in block
6. The end of the region is computed without the markers that the document crosses, and that byte
is not in it. -/
theorem old_version_misses_byte :
    let cfg : DocConfig := { blocksize := 1024, nonConsecutive := false }
    emptyStaleRun.Init ∧ longDoc.Fits sampleCodec ∧
      ¬ (emptyStaleRun.append cfg sampleCodec (.doc longDoc true false)).Tiled cfg := by
  intro cfg
  refine ⟨⟨emptyRun_init, rfl⟩, longDoc_fits, ?_⟩
  intro htiled
  generalize hrun : emptyStaleRun.append cfg sampleCodec (.doc longDoc true false) = run at htiled
  have howned : 6144 / cfg.blocksize ∈ run.state.owned := by
    rw [← hrun]
    decide +kernel
  have hload : load (run.regions cfg ++ run.staleList ++ run.state.rest cfg) 6144 = 0 := by
    rw [← hrun]
    decide +kernel
  have hcovers := load_pos_iff.mpr ((htiled.covers 6144).mpr howned)
  omega

end ForestDB.Docio

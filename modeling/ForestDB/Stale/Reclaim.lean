import ForestDB.Stale.Merge

/-!
Reclaim of stale blocks (`fdb_get_reusable_block`).

The stale regions of the commits up to a revision number are merged, and the whole blocks of
every region of the merge tree are handed out. What is left of the regions stays in the tree and
is written back as a document. Positions are those of a file, so that no sum here leaves 64 bits.

The tree is cut region by region. A block whose bytes lie in two adjacent regions of the tree is
therefore not found, and the merge leaves such regions behind.
-/

namespace ForestDB.Stale

open SortedMap Spans List

/-- `struct reusable_block` -/
structure ReusableBlock where
  bid : Nat
  count : Nat
  deriving DecidableEq, Repr

/-- The bytes of a range of blocks. -/
def ReusableBlock.span (bs : Nat) (b : ReusableBlock) : Span := (b.bid * bs, b.count * bs)

/-! ### The documents with stale regions -/

/-- `struct stale_info_entry`. An entry without a body stands for a document whose regions are
still in the merge tree. -/
structure StaleInfoEntry where
  ctx : Option (List Span)
  offset : Nat
  doclen : Nat
  deriving DecidableEq, Repr

/-- `struct stale_info_commit` -/
structure StaleInfoCommit where
  revnum : Nat
  docList : List StaleInfoEntry
  deriving DecidableEq, Repr

/-- A stale-region document of the file. -/
structure StaleDoc where
  regions : List Span
  offset : Nat
  length : Nat
  deriving DecidableEq, Repr

/-- The part of a file that a reclaim works on. `staletree` gives for each revision number the
documents of its chain that can be read, and both trees are in the order of the revision
numbers. -/
structure StaleFile where
  blocksize : Nat
  blocksize_pos : 0 < blocksize
  metaSize : Nat
  nonConsecutive : Bool
  nextBid : Nat → Nat
  mergetree : MergeTree
  staleInfoTree : List StaleInfoCommit
  staletree : List (Nat × List StaleDoc)

namespace StaleFile

variable (file : StaleFile)

/-- `filemgr_actual_stale_length` -/
def actualStaleLength (offset length : Nat) : Nat :=
  let len := length + ((offset + length) / file.blocksize - offset / file.blocksize)
  if (offset + len) % file.blocksize = file.blocksize - 1 then len + 1 else len

/-- The loop of `filemgr_actual_stale_regions` over the blocks of a document. Every round but the
first takes a whole block, so that the document's length bounds the rounds. -/
def staleRegionsFrom : Nat → Nat → Nat → Nat → List Span
  | 0, _, _, _ => []
  | fuel + 1, curBid, curPos, remaining =>
    if remaining = 0 then []
    else
      let pos := curBid * file.blocksize + curPos
      let spaceInBlock := file.blocksize - file.metaSize - curPos
      if spaceInBlock ≤ remaining then
        (pos, file.blocksize - curPos) ::
          staleRegionsFrom fuel (file.nextBid curBid) 0 (remaining - spaceInBlock)
      else [(pos, remaining)]

/-- `filemgr_actual_stale_regions` -/
def actualStaleRegions (offset length : Nat) : List Span :=
  if file.nonConsecutive then
    staleRegionsFrom file (length + 1) (offset / file.blocksize) (offset % file.blocksize) length
  else [(offset, file.actualStaleLength offset length)]

/-- The regions that an entry of the in-memory tree adds, its own document last. -/
def entryRegions (e : StaleInfoEntry) : List Span :=
  e.ctx.getD [] ++ file.actualStaleRegions e.offset e.doclen

/-- The regions that a document of the file adds. -/
def docRegions (d : StaleDoc) : List Span :=
  d.regions ++ file.actualStaleRegions d.offset d.length

/-- The commits of the in-memory tree up to a revision number. -/
def takenCommits (revnumUpto : Nat) : List StaleInfoCommit :=
  file.staleInfoTree.takeWhile fun c => c.revnum ≤ revnumUpto

/-- The entries of the stale-block tree up to a revision number. -/
def takenDocs (revnumUpto : Nat) : List (Nat × List StaleDoc) :=
  file.staletree.takeWhile fun e => e.1 ≤ revnumUpto

/-- The stale regions that are merged. The stale-block tree is scanned only if there is no stale
information in memory. -/
def collected (revnumUpto : Nat) : List Span :=
  if file.staleInfoTree = [] then
    (file.takenDocs revnumUpto).flatMap fun e => e.2.flatMap file.docRegions
  else
    (file.takenCommits revnumUpto).flatMap fun c => c.docList.flatMap file.entryRegions

def takenRevnums (revnumUpto : Nat) : List Nat :=
  if file.staleInfoTree = [] then (file.takenDocs revnumUpto).map Prod.fst
  else (file.takenCommits revnumUpto).map StaleInfoCommit.revnum

/-- The merge tree that the blocks are taken from. `removed` are the regions that become stale
as the merged commits are removed from the stale-block tree. -/
def merged (revnumUpto : Nat) (removed : List Span) : MergeTree :=
  (file.collected revnumUpto ++ removed).foldl (fun tree r => insertNMerge tree r.1 r.2)
    file.mergetree

end StaleFile

/-! ### Taking the blocks out of the tree -/

def frontMargin (bs pos : Nat) : Nat :=
  if pos % bs = 0 then 0 else bs - pos % bs

/-- The loop over the merge tree: the tree, the blocks found, and the position at which the loop
goes on. -/
structure Extraction where
  tree : MergeTree
  blocks : List ReusableBlock
  resume : Nat
  deriving DecidableEq, Repr

def Extraction.take (st : Extraction) (bs : Nat) (item : Span) : Extraction :=
  let itemPos := item.1 + frontMargin bs item.1
  let itemLen := item.2 - frontMargin bs item.1
  let block : ReusableBlock := { bid := itemPos / bs, count := itemLen / bs }
  -- the part before the first block keeps the item, the part after the last is a new one
  let tree :=
    if frontMargin bs item.1 = 0 then erase item.1 st.tree
    else put item.1 (frontMargin bs item.1) st.tree
  if itemLen % bs = 0 then
    { tree := tree, blocks := st.blocks ++ [block], resume := st.resume }
  else
    let rest := (block.bid + block.count) * bs
    { tree := put rest (itemLen % bs) tree
      blocks := st.blocks ++ [block]
      resume := rest + 1 }

def extractItem (bs : Nat) (st : Extraction) (item : Span) : Extraction :=
  if item.1 < st.resume then st
  else if item.2 < bs then st
  else if item.2 - frontMargin bs item.1 < bs then st
  else st.take bs item

def extractBlocks (bs : Nat) (tree : MergeTree) : Extraction :=
  tree.foldl (extractItem bs) { tree := tree, blocks := [], resume := 0 }

/-! ### The reclaim -/

/-- What a reclaim leaves: the blocks, the regions of the document that is written back, and the
file. -/
structure Reclaimed where
  blocks : List ReusableBlock
  written : List Span
  file : StaleFile

/-- `fdb_gather_stale_blocks` for the merge tree: its items are written as one document under the
last merged revision number. The entry in memory has no body, for the items stay in the tree.
`append` gives the place and the length of the document. -/
def gatherStaleBlocks (file : StaleFile) (append : List Span → Nat × Nat) (revnum : Nat) :
    StaleFile :=
  match file.mergetree with
  | [] => file
  | item :: items =>
    let regions := item :: items
    let place := append regions
    let entry : StaleInfoEntry := { ctx := none, offset := place.1, doclen := place.2 }
    let doc : StaleDoc := { regions := regions, offset := place.1, length := place.2 }
    { file with
      staletree := put revnum [doc] file.staletree
      staleInfoTree :=
        match file.staleInfoTree.find? fun c => c.revnum = revnum with
        | some _ => file.staleInfoTree.map fun c =>
          if c.revnum = revnum then { c with docList := c.docList ++ [entry] } else c
        | none =>
          (file.staleInfoTree.takeWhile fun c => c.revnum < revnum) ++
            { revnum := revnum, docList := [entry] } ::
              file.staleInfoTree.dropWhile fun c => c.revnum < revnum }

/-- `fdb_get_reusable_block` -/
def getReusableBlock (file : StaleFile) (append : List Span → Nat × Nat) (revnumUpto : Nat)
    (removed : List Span) : Reclaimed :=
  let revnums := file.takenRevnums revnumUpto
  let extraction := extractBlocks file.blocksize (file.merged revnumUpto removed)
  let file' : StaleFile :=
    { file with
      mergetree := extraction.tree
      staleInfoTree := file.staleInfoTree.dropWhile fun c => c.revnum ≤ revnumUpto
      staletree := file.staletree.filter fun e => e.1 ∉ revnums }
  { blocks := extraction.blocks
    written := extraction.tree
    file := gatherStaleBlocks file' append (revnums.getLast?.getD 0) }

/-! ### The pieces of a region -/

section Pieces

variable (bs : Nat)

/-- The region holds no whole block. -/
def Small (s : Span) : Prop := s.2 < bs ∨ s.2 - frontMargin bs s.1 < bs

instance (s : Span) : Decidable (Small bs s) :=
  inferInstanceAs (Decidable (_ ∨ _))

/-- The blocks of a region that is not small. -/
def blocksOf (s : Span) : ReusableBlock where
  bid := (s.1 + frontMargin bs s.1) / bs
  count := (s.2 - frontMargin bs s.1) / bs

def cutBlocks (s : Span) : List ReusableBlock :=
  if Small bs s then [] else [blocksOf bs s]

def frontPart (s : Span) : List Span :=
  if frontMargin bs s.1 = 0 then [] else [(s.1, frontMargin bs s.1)]

def backPart (s : Span) : List Span :=
  if (s.2 - frontMargin bs s.1) % bs = 0 then []
  else [(((blocksOf bs s).bid + (blocksOf bs s).count) * bs, (s.2 - frontMargin bs s.1) % bs)]

/-- What stays of a region. -/
def cutRest (s : Span) : List Span :=
  if Small bs s then [s] else frontPart bs s ++ backPart bs s

variable {bs} (hbs : 0 < bs)

include hbs

theorem frontMargin_lt (pos : Nat) : frontMargin bs pos < bs := by
  unfold frontMargin
  split <;> omega

theorem dvd_add_frontMargin (pos : Nat) : bs ∣ pos + frontMargin bs pos := by
  have hmod := Nat.mod_lt pos hbs
  have hdiv := Nat.div_add_mod pos bs
  unfold frontMargin
  split
  · exact Nat.dvd_of_mod_eq_zero (by simpa)
  · refine ⟨pos / bs + 1, ?_⟩
    rw [Nat.mul_add]
    omega

/-- The blocks of a region in bytes: they begin after the front margin and end before what the
blocks leave over. -/
theorem span_blocksOf (s : Span) :
    (blocksOf bs s).span bs =
      (s.1 + frontMargin bs s.1,
        s.2 - frontMargin bs s.1 - (s.2 - frontMargin bs s.1) % bs) := by
  have hstart := Nat.div_mul_cancel (dvd_add_frontMargin hbs s.1)
  have hlen := Nat.div_add_mod' (s.2 - frontMargin bs s.1) bs
  simp only [ReusableBlock.span, blocksOf, Prod.mk.injEq]
  omega

theorem backPart_eq {s : Span} (h : ¬ Small bs s) :
    backPart bs s =
      if (s.2 - frontMargin bs s.1) % bs = 0 then []
      else [(stop s - (s.2 - frontMargin bs s.1) % bs, (s.2 - frontMargin bs s.1) % bs)] := by
  have hspan := span_blocksOf hbs s
  have hrest := Nat.mod_le (s.2 - frontMargin bs s.1) bs
  simp only [ReusableBlock.span, Prod.mk.injEq] at hspan
  have hend : ((blocksOf bs s).bid + (blocksOf bs s).count) * bs =
      stop s - (s.2 - frontMargin bs s.1) % bs := by
    rw [add_mul]
    unfold Small at h
    unfold stop
    omega
  simp only [backPart, hend]

theorem covers_cutRest (s : Span) (x : Nat) :
    Covers (cutRest bs s) x ↔
      (s.1 ≤ x ∧ x < stop s) ∧ ¬ Covers ((cutBlocks bs s).map (ReusableBlock.span bs)) x := by
  by_cases hsmall : Small bs s
  · simp [cutRest, cutBlocks, hsmall]
  · have hmod := Nat.mod_le (s.2 - frontMargin bs s.1) bs
    simp only [cutRest, cutBlocks, if_neg hsmall, map_cons, map_nil, covers_append,
      span_blocksOf hbs, backPart_eq hbs hsmall, frontPart]
    unfold Small at hsmall
    split <;> split <;> simp only [covers_nil, covers_cons, stop, false_or, or_false, false_iff] <;>
      omega

theorem inside_cut (s a : Span)
    (ha : a ∈ (cutBlocks bs s).map (ReusableBlock.span bs) ++ cutRest bs s) : Inside s a := by
  by_cases hsmall : Small bs s
  · simp only [cutBlocks, cutRest, if_pos hsmall, map_nil, nil_append, mem_singleton] at ha
    subst ha
    exact ⟨le_refl _, le_refl _⟩
  · have hmod := Nat.mod_le (s.2 - frontMargin bs s.1) bs
    simp only [cutBlocks, cutRest, if_neg hsmall, map_cons, map_nil, mem_append,
      mem_singleton, span_blocksOf hbs, backPart_eq hbs hsmall, frontPart] at ha
    unfold Small at hsmall
    unfold Inside stop
    rcases ha with rfl | ha | ha
    · omega
    · split at ha
      · simp at ha
      · rw [mem_singleton.mp ha]
        omega
    · split at ha
      · simp at ha
      · rw [mem_singleton.mp ha]
        dsimp only [stop]
        omega

theorem off_cut (s : Span) :
    ((cutBlocks bs s).map (ReusableBlock.span bs) ++ cutRest bs s).Pairwise Off := by
  by_cases hsmall : Small bs s
  · simp [cutBlocks, cutRest, hsmall]
  · have hmod := Nat.mod_le (s.2 - frontMargin bs s.1) bs
    simp only [cutBlocks, cutRest, if_neg hsmall, map_cons, map_nil,
      span_blocksOf hbs, backPart_eq hbs hsmall, frontPart]
    split <;> simp only [nil_append, cons_append, pairwise_cons, Off, stop] <;> grind

theorem mem_cutBlocks {s : Span} {i : Nat} (hlo : s.1 ≤ i * bs) (hhi : (i + 1) * bs ≤ stop s) :
    ∃ b ∈ cutBlocks bs s, b.bid ≤ i ∧ i < b.bid + b.count := by
  have hspan := span_blocksOf hbs s
  have hmod := Nat.mod_lt (s.2 - frontMargin bs s.1) hbs
  have hmargin := frontMargin_lt hbs s.1
  simp only [ReusableBlock.span, Prod.mk.injEq] at hspan
  rw [add_mul] at hhi
  have hfirst : (blocksOf bs s).bid ≤ i := by
    by_contra hlt
    have hle := Nat.mul_le_mul_right bs (show i + 1 ≤ (blocksOf bs s).bid by omega)
    rw [add_mul] at hle
    omega
  have hle := Nat.mul_le_mul_right bs hfirst
  have hsmall : ¬ Small bs s := by
    unfold Small
    unfold stop at hhi
    omega
  refine ⟨blocksOf bs s, by simp [cutBlocks, hsmall], hfirst, ?_⟩
  by_contra hlt
  have hend := Nat.mul_le_mul_right bs
    (show (blocksOf bs s).bid + (blocksOf bs s).count ≤ i by omega)
  rw [add_mul] at hend
  unfold stop at hhi
  omega

end Pieces

/-! ### The loop cuts region by region -/

section Loop

variable {bs : Nat} {L R : MergeTree} {item : Span} {st : Extraction}

theorem take_front (hL : Below L item.1) (hR : Above item.1 R) :
    (if frontMargin bs item.1 = 0 then erase item.1 (L ++ item :: R)
      else put item.1 (frontMargin bs item.1) (L ++ item :: R)) =
        L ++ (frontPart bs item ++ R) := by
  unfold frontPart
  split
  · have h := erase_within (Y := [item]) hL hR
    simpa [erase] using h
  · exact put_replace hL

section

variable (hbs : 0 < bs) (hL : Below L item.1) (hR : Above item.1 R)
  (hstop : ∀ s ∈ R, stop item ≤ s.1) (htree : st.tree = L ++ item :: R)
include hbs hL hR hstop htree

theorem take_cut (hsmall : ¬ Small bs item) :
    (st.take bs item).tree = L ++ cutRest bs item ++ R ∧
      (st.take bs item).blocks = st.blocks ++ cutBlocks bs item ∧
        ((st.take bs item).resume ≤ st.resume ∨ (st.take bs item).resume ≤ stop item) := by
  have hback := backPart_eq hbs hsmall
  have hlen : bs ≤ item.2 - frontMargin bs item.1 := by
    unfold Small at hsmall
    omega
  simp only [Extraction.take, htree, take_front hL hR, cutRest, cutBlocks]
  split
  case isTrue hzero => simp [backPart, hzero, blocksOf]
  case isFalse hrest =>
    simp only [backPart, if_neg hrest, List.cons.injEq, Prod.mk.injEq, and_true] at hback
    have hkey : (item.1 + frontMargin bs item.1) / bs + (item.2 - frontMargin bs item.1) / bs =
      (blocksOf bs item).bid + (blocksOf bs item).count := rfl
    have hlt : (item.2 - frontMargin bs item.1) % bs < bs := Nat.mod_lt _ hbs
    rw [hkey, hback]
    refine ⟨?_, rfl, .inr ?_⟩
    · rw [← append_assoc, put_between]
      · simp [backPart, hrest, hback]
      · have hbelow : Below (frontPart bs item) (stop item -
            (item.2 - frontMargin bs item.1) % bs) := by
          unfold frontPart stop
          split
          · simp
          · simp only [below_cons, below_nil, and_true]
            omega
        rw [below_append]
        refine ⟨hL.mono ?_, hbelow⟩
        unfold stop
        omega
      · intro s hs
        have := hstop s hs
        unfold stop at this ⊢
        omega
    · unfold stop
      dsimp only
      omega

theorem extractItem_cut (hresume : st.resume ≤ item.1) :
    (extractItem bs st item).tree = L ++ cutRest bs item ++ R ∧
      (extractItem bs st item).blocks = st.blocks ++ cutBlocks bs item ∧
        (extractItem bs st item).resume ≤ stop item := by
  have hle : item.1 ≤ stop item := Nat.le_add_right _ _
  by_cases hsmall : Small bs item
  · have hst : extractItem bs st item = st := by
      unfold extractItem
      rcases hsmall with h | h
      · rw [if_neg (by omega), if_pos h]
      · simp [h]
    rw [hst]
    refine ⟨by simp [cutRest, hsmall, htree], by simp [cutBlocks, hsmall], hresume.trans hle⟩
  · have hst : extractItem bs st item = st.take bs item := by
      unfold Small at hsmall
      unfold extractItem
      rw [if_neg (by omega), if_neg (by omega), if_neg (by omega)]
    obtain ⟨htake, hblocks, hres⟩ := take_cut hbs hL hR hstop htree hsmall
    rw [hst]
    exact ⟨htake, hblocks, by omega⟩

end

theorem below_cutRest (hbs : 0 < bs) {s : Span} {k : Nat} (hlt : s.1 < k) (hstop : stop s ≤ k) :
    Below (cutRest bs s) k := by
  by_cases hsmall : Small bs s
  · simpa [cutRest, hsmall] using hlt
  · simp only [cutRest, if_neg hsmall, below_append, backPart_eq hbs hsmall, frontPart]
    constructor <;> split <;> simp only [below_nil, below_cons, and_true] <;> omega

theorem extractLoop_cut (hbs : 0 < bs) (hsorted : Sorted R) (hsep : Separate R)
    (hL : ∀ s ∈ R, Below L s.1) (htree : st.tree = L ++ R) (hresume : ∀ s ∈ R, st.resume ≤ s.1) :
    (R.foldl (extractItem bs) st).tree = L ++ R.flatMap (cutRest bs) ∧
      (R.foldl (extractItem bs) st).blocks = st.blocks ++ R.flatMap (cutBlocks bs) := by
  induction R generalizing L st with
  | nil => simp [htree]
  | cons item R ih =>
    obtain ⟨habove, hsorted⟩ := sorted_cons.mp hsorted
    obtain ⟨hstop, hsep⟩ := pairwise_cons.mp hsep
    obtain ⟨htree', hblocks, hres⟩ := extractItem_cut hbs (hL item (by simp)) habove hstop htree
      (hresume item (by simp))
    have hL' : ∀ s ∈ R, Below (L ++ cutRest bs item) s.1 := by
      intro s hs
      rw [below_append]
      exact ⟨hL s (by simp [hs]), below_cutRest hbs (habove s hs) (hstop s hs)⟩
    obtain ⟨h1, h2⟩ := ih hsorted hsep hL' htree' fun s hs => hres.trans (hstop s hs)
    rw [foldl_cons, h1, h2, hblocks]
    simp

theorem extractBlocks_cut (hbs : 0 < bs) {tree : MergeTree} (hsorted : Sorted tree)
    (hsep : Separate tree) :
    (extractBlocks bs tree).tree = tree.flatMap (cutRest bs) ∧
      (extractBlocks bs tree).blocks = tree.flatMap (cutBlocks bs) := by
  let start : Extraction := { tree := tree, blocks := [], resume := 0 }
  have htree : start.tree = [] ++ tree := rfl
  exact extractLoop_cut hbs hsorted hsep (by simp) htree (by simp [start])

end Loop

/-! ### What a reclaim is for -/

/-- Every byte of the block is stale. -/
def WholeBlock (bs : Nat) (stale : List Span) (i : Nat) : Prop :=
  ∀ x, i * bs ≤ x → x < (i + 1) * bs → Covers stale x

/-- The blocks lie in the stale regions, each whole block is in exactly one range, the regions
that are left cover just the stale bytes outside the blocks, and no byte is counted twice. -/
structure Reclaims (bs : Nat) (stale : List Span) (blocks : List ReusableBlock)
    (left : List Span) : Prop where
  inside : ∀ b ∈ blocks, ∀ x, (b.span bs).1 ≤ x → x < stop (b.span bs) → Covers stale x
  whole : ∀ i, WholeBlock bs stale i →
    ∃ b, (blocks.filter fun b => b.bid ≤ i ∧ i < b.bid + b.count) = [b]
  left_iff : ∀ x, Covers left x ↔
    Covers stale x ∧ ¬ Covers (blocks.map (ReusableBlock.span bs)) x
  once : (blocks.map (ReusableBlock.span bs) ++ left).Pairwise Off

section Exact

variable {bs i : Nat} {tree : MergeTree}

theorem span_covers_block (bs : Nat) {b : ReusableBlock} (hlo : b.bid ≤ i)
    (hhi : i < b.bid + b.count) : (b.span bs).1 ≤ i * bs ∧ (i + 1) * bs ≤ stop (b.span bs) := by
  have h1 := Nat.mul_le_mul_right bs hlo
  have h2 := Nat.mul_le_mul_right bs (Nat.succ_le_of_lt hhi)
  rw [add_mul b.bid] at h2
  exact ⟨h1, h2⟩

theorem covers_blocks (tree : MergeTree) (x : Nat) :
    Covers ((tree.flatMap (cutBlocks bs)).map (ReusableBlock.span bs)) x ↔
      ∃ s ∈ tree, Covers ((cutBlocks bs s).map (ReusableBlock.span bs)) x := by
  rw [map_flatMap, covers_flatMap]

theorem cut_off (hbs : 0 < bs) (hsep : Separate tree) :
    ((tree.flatMap (cutBlocks bs)).map (ReusableBlock.span bs) ++
      tree.flatMap (cutRest bs)).Pairwise Off := by
  rw [map_flatMap]
  apply (flatMap_append_perm tree _ _).symm.pairwise
  · exact hsep.pieces (fun s _ => inside_cut hbs s) fun s _ => off_cut hbs s
  · exact off_symm

theorem filter_block (hbs : 0 < bs) {blocks : List ReusableBlock}
    (hoff : (blocks.map (ReusableBlock.span bs)).Pairwise Off)
    (hmem : ∃ b ∈ blocks, b.bid ≤ i ∧ i < b.bid + b.count) :
    ∃ b, (blocks.filter fun b => b.bid ≤ i ∧ i < b.bid + b.count) = [b] := by
  obtain ⟨b, hb, hi⟩ := hmem
  rcases hfilter : blocks.filter (fun b => b.bid ≤ i ∧ i < b.bid + b.count) with
    _ | ⟨c, _ | ⟨d, ds⟩⟩
  · have := filter_eq_nil_iff.mp hfilter b hb
    simp [hi] at this
  · exact ⟨c, hfilter⟩
  · have hpair := (pairwise_map.mp hoff).sublist (filter_sublist
      (p := fun b => b.bid ≤ i ∧ i < b.bid + b.count))
    have hall : ∀ e ∈ c :: d :: ds, e.bid ≤ i ∧ i < e.bid + e.count := by
      intro e he
      rw [← hfilter] at he
      simpa using (mem_filter.mp he).2
    rw [hfilter] at hpair
    obtain ⟨hc, hc'⟩ := hall c (by simp)
    obtain ⟨hd, hd'⟩ := hall d (by simp)
    have hsc := span_covers_block bs hc hc'
    have hsd := span_covers_block bs hd hd'
    have hlt : i * bs < (i + 1) * bs := Nat.mul_lt_mul_of_pos_right (Nat.lt_succ_self i) hbs
    exact absurd ⟨⟨hsc.1, hlt.trans_le hsc.2⟩, hsd.1, hlt.trans_le hsd.2⟩
      ((pairwise_cons.mp hpair).1 d (by simp) (i * bs))

theorem cut_reclaims (hbs : 0 < bs) (hsep : Separate tree)
    (hone : ∀ i, WholeBlock bs tree i → ∃ s ∈ tree, s.1 ≤ i * bs ∧ (i + 1) * bs ≤ stop s) :
    Reclaims bs tree (tree.flatMap (cutBlocks bs)) (tree.flatMap (cutRest bs)) := by
  have hoff := cut_off hbs hsep
  constructor
  case inside =>
    intro b hb x hlo hhi
    obtain ⟨s, hs, hb⟩ := mem_flatMap.mp hb
    have hin := inside_cut hbs s (b.span bs)
      (mem_append_left _ (mem_map_of_mem hb))
    exact ⟨s, hs, hin.1.trans hlo, hhi.trans_le hin.2⟩
  case whole =>
    intro i hi
    obtain ⟨s, hs, hlo, hhi⟩ := hone i hi
    obtain ⟨b, hb, hbi⟩ := mem_cutBlocks hbs hlo hhi
    apply filter_block hbs (pairwise_append.mp hoff).1
    exact ⟨b, mem_flatMap.mpr ⟨s, hs, hb⟩, hbi⟩
  case left_iff =>
    intro x
    rw [covers_flatMap, covers_blocks]
    constructor
    · rintro ⟨s, hs, hx⟩
      obtain ⟨hxs, hnot⟩ := (covers_cutRest hbs s x).mp hx
      refine ⟨⟨s, hs, hxs⟩, ?_⟩
      rintro ⟨s', hs', a, ha, hxa⟩
      -- the byte is in one region only, so the piece of the other region cannot hold it
      have hin := inside_cut hbs s' a (mem_append_left _ ha)
      rcases hsep.of_mem hs hs' with rfl | hlt | hlt
      · exact hnot ⟨a, ha, hxa⟩
      · have := hin.1
        omega
      · have := hin.2
        omega
    · rintro ⟨⟨s, hs, hxs⟩, hnot⟩
      exact ⟨s, hs, (covers_cutRest hbs s x).mpr ⟨hxs, fun hx => hnot ⟨s, hs, hx⟩⟩⟩
  case once => exact hoff

end Exact

/-- A reclaim from a merge tree of disjoint regions is exact just when every stale block lies in
one region of the tree. -/
theorem reclaim_exact_iff (file : StaleFile) (append : List Span → Nat × Nat) (revnumUpto : Nat)
    (removed : List Span) (hsorted : Sorted (file.merged revnumUpto removed))
    (hdisjoint : Separate (file.merged revnumUpto removed)) :
    Reclaims file.blocksize (file.merged revnumUpto removed)
        (getReusableBlock file append revnumUpto removed).blocks
        (getReusableBlock file append revnumUpto removed).written ↔
      ∀ i, WholeBlock file.blocksize (file.merged revnumUpto removed) i →
        ∃ s ∈ file.merged revnumUpto removed,
          s.1 ≤ i * file.blocksize ∧ (i + 1) * file.blocksize ≤ stop s := by
  have hbs := file.blocksize_pos
  obtain ⟨hleft, hblocks⟩ := extractBlocks_cut hbs hsorted hdisjoint
  simp only [getReusableBlock, hleft, hblocks]
  constructor
  · intro h i hi
    obtain ⟨b, hb⟩ := h.whole i hi
    have hmem : b ∈ [b] := by simp
    rw [← hb, mem_filter, mem_flatMap, decide_eq_true_iff] at hmem
    obtain ⟨⟨s, hs, hcut⟩, hlo, hhi⟩ := hmem
    have hin := inside_cut hbs s (b.span file.blocksize)
      (mem_append_left _ (mem_map_of_mem hcut))
    obtain ⟨hfirst, hlast⟩ := span_covers_block file.blocksize hlo hhi
    exact ⟨s, hs, hin.1.trans hfirst, hlast.trans hin.2⟩
  · exact cut_reclaims hbs hdisjoint

/-! ### Adjacent regions -/

/-- A file whose last commit has four stale regions, the last of them between the others. -/
def touchingFile : StaleFile where
  blocksize := 16
  blocksize_pos := by decide
  metaSize := 0
  nonConsecutive := false
  nextBid := fun _ => 0
  mergetree := []
  staleInfoTree :=
    [{ revnum := 1
       docList :=
        [{ ctx := some [(0, 10), (20, 10), (40, 10), (10, 30)], offset := 160, doclen := 5 }] }]
  staletree := []

theorem touchingFile_merged : touchingFile.merged 1 [] = [(0, 40), (40, 10), (160, 5)] := by
  decide

/-- Of three removed regions two are merged, and the blocks of both regions of the tree are handed
out. -/
theorem reclaim_exact_three_regions :
    Reclaims 16 (touchingFile.merged 0 [(16, 40), (100, 40), (4, 12)])
      (getReusableBlock touchingFile (fun _ => (0, 0)) 0 [(16, 40), (100, 40), (4, 12)]).blocks
      (getReusableBlock touchingFile (fun _ => (0, 0)) 0 [(16, 40), (100, 40), (4, 12)]).written := by
  have hmerged : touchingFile.merged 0 [(16, 40), (100, 40), (4, 12)] = [(4, 52), (100, 40)] := by
    decide
  refine (reclaim_exact_iff touchingFile (fun _ => (0, 0)) 0 _ ?_ ?_).mpr ?_
  all_goals rw [hmerged]
  · simp [Sorted]
  · decide
  · intro i hi
    have hlo := hi (i * 16) (by change i * 16 ≤ _; omega) (by change _ < (i + 1) * 16; omega)
    have hhi := hi (i * 16 + 15) (by change i * 16 ≤ _; omega) (by change _ < (i + 1) * 16; omega)
    simp only [covers_cons, covers_nil, or_false, stop_mk] at hlo hhi
    change ∃ s ∈ _, s.1 ≤ i * 16 ∧ (i + 1) * 16 ≤ stop s
    simp only [mem_cons, not_mem_nil, or_false, exists_eq_or_imp, exists_eq_left, stop_mk]
    omega

/-- Two adjacent regions are left in the tree. The block that lies across them is stale and is
not handed out. -/
theorem block_across_regions_lost :
    Separate (touchingFile.merged 1 []) ∧ WholeBlock 16 (touchingFile.merged 1 []) 2 ∧
      (getReusableBlock touchingFile (fun _ => (0, 0)) 1 []).blocks = [{ bid := 0, count := 2 }] ∧
      ¬ Reclaims 16 (touchingFile.merged 1 [])
        (getReusableBlock touchingFile (fun _ => (0, 0)) 1 []).blocks
        (getReusableBlock touchingFile (fun _ => (0, 0)) 1 []).written := by
  have hwhole : WholeBlock 16 (touchingFile.merged 1 []) 2 := by
    rw [touchingFile_merged]
    intro x hlo hhi
    simp only [covers_cons, stop_mk]
    omega
  have hblocks : (getReusableBlock touchingFile (fun _ => (0, 0)) 1 []).blocks =
      [{ bid := 0, count := 2 }] := by decide
  refine ⟨by rw [touchingFile_merged]; decide, hwhole, hblocks, ?_⟩
  intro h
  obtain ⟨b, hb⟩ := h.whole 2 hwhole
  rw [hblocks] at hb
  simp at hb

end ForestDB.Stale

import Mathlib.Data.List.GetD
import KvTier.Analysis.LeafPages
import KvTier.Analysis.LeafRules

/-!
# Where the pages of the leaves are, over all sessions

A property of extents that every publish has is one of every extent with pages, of every leaf, in
every state of every history of sessions (`ExtentsOk`).
-/

namespace KvTier.Analysis

open KvTier.Lib KvTier.Model List

variable {E : Extent → Prop}

/-- The extents of a leaf that have pages. -/
def LeafExtents (E : Extent → Prop) (lf : RadixLeaf) : Prop :=
  ∀ e ∈ lf.extents, 0 < e.lenPages → E e

/-- The extent of a publish. -/
def ArgsExtent (E : Extent → Prop) (a : PublishArgs) : Prop :=
  0 < a.addr.lenPages → E a.addr.extent

/-- The extent of a PUT record. -/
def RecExtent (E : Extent → Prop) (r : JournalRec) : Prop :=
  0 < r.addrLen → E ⟨r.addrDev, r.addrPage, r.addrLen⟩

/-- The parts in the table of replay. -/
def TableExtents (E : Extent → Prop) (stripes : List ReplayStripe) : Prop :=
  ∀ st ∈ stripes, ∀ p ∈ st.parts, 0 < p.lenPages → E ⟨p.devId, p.pageNo, p.lenPages⟩

/-- The leaves, the checkpoint and the journals. -/
abbrev ExtentsOk (E : Extent → Prop) (s : Store) : Prop :=
  LeavesOk (fun _ _ => LeafExtents E) (fun _ => RecExtent E) s

theorem publishKeeps_extents (E : Extent → Prop) :
    PublishKeeps (fun _ _ => LeafExtents E) fun _ => ArgsExtent E := by
  intro n old a lf ha hold hl e he hpos
  rcases mem_extents_leafPublish hl he hpos with ⟨o, ho, hmem⟩ | rfl
  · exact hold o ho e hmem hpos
  · exact ha hpos

theorem leafExtents_reloaded (shapes : List Shape) {lf : RadixLeaf} (h : LeafExtents E lf) :
    LeafExtents E (reloaded shapes lf) := h

/-! ## Replay -/

theorem TableExtents.find {stripes stripes' : List ReplayStripe} {r : JournalRec} {i : Nat}
    (h : TableExtents E stripes) (hf : replayFindStripe stripes r = some (stripes', i)) :
    TableExtents E stripes' := by
  unfold replayFindStripe at hf
  split at hf
  · cases hf
    exact h
  split at hf
  · cases hf
  cases hf
  intro st hst p hp hpos
  rcases mem_append.1 hst with hst | hst
  · exact h st hst p hp hpos
  · rw [mem_singleton.1 hst] at hp
    rw [eq_of_mem_replicate hp] at hpos
    exact absurd hpos (Nat.lt_irrefl 0)

theorem extents_fill {st : ReplayStripe} {r : JournalRec} (hr : RecExtent E r)
    (h : ∀ p ∈ st.parts, 0 < p.lenPages → E ⟨p.devId, p.pageNo, p.lenPages⟩) :
    ∀ p ∈ (st.fill r).parts, 0 < p.lenPages → E ⟨p.devId, p.pageNo, p.lenPages⟩ := by
  unfold ReplayStripe.fill
  split
  · intro p hp hpos
    rcases mem_or_eq_of_mem_set hp with hp | rfl
    · exact h p hp hpos
    · exact hr hpos
  · exact h

theorem argsExtent_part {st : ReplayStripe} {r : JournalRec} {shape : Option Shape} {p : Nat}
    (h : ∀ p ∈ st.parts, 0 < p.lenPages → E ⟨p.devId, p.pageNo, p.lenPages⟩) :
    ArgsExtent E (replayPartArgs r st shape p) := by
  intro hpos
  by_cases hp : p < st.parts.length
  · have hget := getD_eq_getElem st.parts ReplayPart.zero hp
    simp only [replayPartArgs, hget, KvAddr.extent] at hpos ⊢
    exact h _ (getElem_mem hp) hpos
  · have hget := getD_eq_default st.parts ReplayPart.zero (Nat.le_of_not_lt hp)
    simp only [replayPartArgs, hget] at hpos
    exact absurd hpos (Nat.lt_irrefl 0)

theorem extents_replayPut {st : Replay} (h : LeavesAll (fun _ => LeafExtents E) st.idx)
    (hok : SideOk st.idx) (htab : TableExtents E st.stripes) {node : Path} {r : JournalRec}
    (hside : sideGet st.idx.side r.prefixId r.groupIdx = some node) (hr : RecExtent E r) :
    LeavesAll (fun _ => LeafExtents E) (replayPut st node r).idx ∧
      TableExtents E (replayPut st node r).stripes := by
  have hshaped : LeavesAll (fun _ => LeafExtents E)
      { st.idx with shapes := (replayShape st.idx.shapes r).1 } := h
  have hokShaped : SideOk { st.idx with shapes := (replayShape st.idx.shapes r).1 } :=
    hok.congr rfl rfl
  unfold replayPut
  simp only
  split
  · cases hf : replayFindStripe st.stripes r with
    | none => exact ⟨hshaped, htab⟩
    | some si =>
      obtain ⟨stripes, i⟩ := si
      have htab' := htab.find hf
      -- the entry of the record's put, with its part filled in
      have hentry : ∀ p ∈ ((stripes.getD i ⟨0, 0, 0, 0, 0, []⟩).fill r).parts, 0 < p.lenPages →
          E ⟨p.devId, p.pageNo, p.lenPages⟩ := by
        refine extents_fill hr ?_
        by_cases hi : i < stripes.length
        · rw [getD_eq_getElem _ _ hi]
          exact htab' _ (getElem_mem hi)
        · rw [getD_eq_default _ _ (Nat.le_of_not_lt hi)]
          simp
      have hset : TableExtents E
          (stripes.set i ((stripes.getD i ⟨0, 0, 0, 0, 0, []⟩).fill r)) := by
        intro st' hst' p hp hpos
        rcases mem_or_eq_of_mem_set hst' with hst' | rfl
        · exact htab' st' hst' p hp hpos
        · exact hentry p hp hpos
      simp only
      split
      · refine ⟨?_, hset⟩
        generalize (stripes.getD i ⟨0, 0, 0, 0, 0, []⟩).fill r = entry at hentry
        have hall : LeavesAll (fun _ => LeafExtents E)
            (publishAll { st.idx with shapes := (replayShape st.idx.shapes r).1 } node
              ((List.range entry.stripeCnt).map
                (replayPartArgs r entry (replayShape st.idx.shapes r).2))) := by
          refine hshaped.publishAll hokShaped hside (fun a ha => ?_) fun a ha old lf hold hl => ?_
          · obtain ⟨p, _, rfl⟩ := mem_map.1 ha
            exact ⟨rfl, rfl⟩
          · obtain ⟨p, _, rfl⟩ := mem_map.1 ha
            exact publishKeeps_extents E 0 old _ lf (argsExtent_part hentry) hold hl
        simpa only [publishAll, replayPublishAll, foldl_map] using hall
      · exact ⟨hshaped, hset⟩
  refine ⟨hshaped.publish hokShaped (a := replayArgs r (replayShape st.idx.shapes r).2) hside
    fun lf hold hl => ?_, htab⟩
  have ha : ArgsExtent E (replayArgs r (replayShape st.idx.shapes r).2) := hr
  exact publishKeeps_extents E 0 _ _ lf ha hold hl

/-- One record of a journal. -/
theorem extents_replayApply (nDevs regionCnt : Nat) {st : Replay}
    (h : LeavesAll (fun _ => LeafExtents E) st.idx) (hok : SideOk st.idx)
    (htab : TableExtents E st.stripes) {r : JournalRec} (hpath : PathOk r)
    (hr : r.op = .put → RecExtent E r) :
    LeavesAll (fun _ => LeafExtents E) (replayApply nDevs regionCnt st r).idx ∧
      TableExtents E (replayApply nDevs regionCnt st r).stripes := by
  unfold replayApply
  cases hop : r.op with
  | del =>
    simp only
    split
    · exact ⟨h, htab⟩
    split
    · exact ⟨h, htab⟩
    · split
      · exact ⟨h.drop _, htab⟩
      · exact ⟨h, htab⟩
  | trim =>
    simp only
    split <;> exact ⟨h, htab⟩
  | put =>
    simp only
    split
    · exact ⟨h, htab⟩
    have hres : LeavesAll (fun _ => LeafExtents E)
        (resolveNode st.idx r.prefixId r.groupIdx r.path).1 :=
      h.resolve r.prefixId r.groupIdx r.path
    exact @extents_replayPut E
      { st with
        idx := (resolveNode st.idx r.prefixId r.groupIdx r.path).1
        maxVer := max st.maxVer r.ver }
      hres (hok.resolveNode r.prefixId r.groupIdx (hpath hop)) htab _ r
      (sideGet_resolveNode_self st.idx r.prefixId r.groupIdx r.path) (hr hop)

theorem extents_replayJournal {nDevs regionCnt : Nat} {st : Replay}
    (h : LeavesAll (fun _ => LeafExtents E) st.idx) (hok : IndexOk st.idx)
    (htab : TableExtents E st.stripes) {rs : List JournalRec} (hpath : ∀ r ∈ rs, PathOk r)
    (hr : ∀ r ∈ rs, r.op = .put → RecExtent E r) :
    LeavesAll (fun _ => LeafExtents E) (replayJournal nDevs regionCnt st rs).idx := by
  induction rs generalizing st with
  | nil => exact h
  | cons r rs ih =>
    have hp := hpath r (by simp)
    obtain ⟨h1, htab1⟩ := extents_replayApply nDevs regionCnt h hok.side htab hp
      (hr r (by simp))
    exact ih h1 (hok.apply hp) htab1 (fun r' hr' => hpath r' (by simp [hr']))
      fun r' hr' => hr r' (by simp [hr'])

theorem ExtentsOk.recovered {s : Store} (hok : SessionOk s) (h : ExtentsOk E s) (cfg : Config) :
    LeavesAll (fun _ => LeafExtents E) (recover s.ckpt cfg.nDevs cfg.regionCnt cfg.regionSizePages
      fun d => journalRead ((s.jours d).reinit cfg.journalPages)).idx := by
  rw [recover_eq]
  refine extents_replayJournal ?_ ?_ (by simp [replayInit, TableExtents]) (fun r hr => ?_)
    fun r hr => ?_
  · cases hc : s.ckpt with
    | none => exact LeavesAll.empty
    | some f =>
      obtain ⟨idx, ver, n, c, z, rfl, hdist, hpool, hleaves⟩ := h.ckpt f hc
      exact LeavesAll.loaded (L := fun _ _ => LeafExtents E)
        (fun _ _ shapes _ => leafExtents_reloaded shapes) (n := n) hdist hpool hleaves
  · cases hc : s.ckpt with
    | none => exact IndexOk.empty
    | some f =>
      obtain ⟨idx, ver, n, c, z, rfl, hside, hpool⟩ := hok.ckpt f hc
      exact IndexOk.loaded hside hpool ver n c z _ _ _
  · obtain ⟨d, _, hr⟩ := mem_flatMap.mp hr
    obtain ⟨p, hp⟩ := mem_readFrom hr
    exact (hok.recs d).pages p r hp
  · obtain ⟨d, _, hr⟩ := mem_flatMap.mp hr
    obtain ⟨p, hp⟩ := mem_readFrom hr
    exact (h.recs d).pages p r hp

theorem ExtentsOk.reopen {s : Store} (hok : SessionOk s) (h : ExtentsOk E s) (cfg : Config) :
    ExtentsOk E (Session.reopen s cfg).store := by
  unfold Session.reopen
  split
  · exact ⟨ExtentsOk.recovered hok h cfg, fun d => (h.recs d).reinit _, h.ckpt⟩
  · exact (LeavesOk.format cfg).congr LeavesAll.empty rfl rfl

end KvTier.Analysis

import Runbook.Proofs.JobHistory
import Runbook.Proofs.Listings
import Runbook.Proofs.RunHistory
import Runbook.Proofs.StampOrder

/-!
# `Proofs.JobListings` — which jobs are listed for a worker

A store in memory looks through its records. A table finds the jobs of a worker in a column that is written with
each record, and sorts them by another one that is written only when a job is first recorded. A key-value store
keeps an index for each worker, to which jobs are only added.

## Contents
- **Workers.** `JobStore.HasWorker` and `JobStore.indexOf`, and what a write makes of them.
- **Rows and indexes.** `JobStore.Indexed`, what they tell of the records.
- **Listings.** For each backend the ids that are listed, and `JobStore.Indexed.listByWorker`.
- **Histories.** `Stores.Reassigned` and `Stores.Redated`; one step, `Indexed.answers`, and
  `jobs_listed_exactly`.
-/

namespace Runbook

namespace JobStore

variable {s s' : JobStore} {r : JobRecord} {id w : String} {now : Stamp}

/-! ## Workers -/

/-- **The record of a job names a worker.** -/
def HasWorker (s : JobStore) (id w : String) : Prop := ∃ r, s.get id = .ok (some r) ∧ r.workerId = w

/-- The jobs that were ever noted under a worker. -/
def indexOf (s : JobStore) (w : String) : Keyed Stamp := (s.byWorker.get? w).getD []

theorem Wrote.hasWorker (h : s.Wrote r s') (hr : r.Proper) (id w : String) :
    s'.HasWorker id w ↔ if id = r.jobId then r.workerId = w else s.HasWorker id w := by
  unfold HasWorker
  split
  · next hid =>
    subst hid
    rw [h.get_self hr]
    refine ⟨?_, fun hw => ⟨_, rfl, hw⟩⟩
    rintro ⟨kept, hkept, hw⟩
    obtain rfl := Option.some.inj (Except.ok.inj hkept)
    exact hw
  · next hid => rw [h.get_of_ne hid]

theorem indexOf_note (s : JobStore) (r : JobRecord) (w : String) : (s.note r).indexOf w
    = if w = r.workerId then (s.indexOf w).put r.jobId r.createdAt else s.indexOf w := by
  unfold indexOf note
  split
  · next hw => rw [hw, Keyed.get?_put_self, Option.getD_some]
  · next hw => rw [Keyed.get?_put_of_ne _ _ hw]

/-! ## Rows and indexes -/

/-- **What rows and indexes tell of the records.** A row names the worker of its record, and has its time of
    creation unless that was changed, as told by `Redated`. The index of a worker has the jobs that name the
    worker, with their times of creation, and those that named it formerly, as told by `Former`. -/
structure Indexed (s : JobStore) (Former : String → String → Prop) (Redated : String → Prop) : Prop where
  ids : s.records.keys.Nodup
  rowIds : s.columns.keys.Nodup
  indexIds : ∀ w, (s.indexOf w).keys.Nodup
  rows : ∀ id w, (s.columns.get? id).map JobColumns.workerId = some w ↔ s.HasWorker id w
  dates : ∀ id row r, s.columns.get? id = some row → s.get id = .ok (some r) →
    row.createdAt = r.createdAt ∨ Redated id
  members : ∀ id w, id ∈ (s.indexOf w).keys ↔ s.HasWorker id w ∨ Former id w
  scores : ∀ id r t, s.get id = .ok (some r) → (s.indexOf r.workerId).get? id = some t → t = r.createdAt

variable {Former Former' : String → String → Prop} {Redated Redated' : String → Prop}

theorem indexed_empty (b : Backend) : (Stores.empty b).jobs.Indexed (fun _ _ => False) fun _ => False where
  ids := List.nodup_nil
  rowIds := List.nodup_nil
  indexIds _ := List.nodup_nil
  rows _ _ := ⟨nofun, fun ⟨_, h, _⟩ => absurd h nofun⟩
  dates _ _ _ := nofun
  members _ _ := ⟨nofun, fun h => h.elim (fun ⟨_, h, _⟩ => absurd h nofun) False.elim⟩
  scores _ _ _ := nofun

theorem Indexed.mono (h : s.Indexed Former Redated) (hformer : ∀ id w, Former' id w ↔ Former id w)
    (hredated : ∀ id, Redated id → Redated' id) : s.Indexed Former' Redated' :=
  { h with
    dates := fun id row r hrow hr => (h.dates id row r hrow hr).imp_right (hredated id)
    members := fun id w => (h.members id w).trans (or_congr_right (hformer id w).symm) }

/-- A job is found in the index of its worker. -/
theorem Indexed.get?_indexOf (h : s.Indexed Former Redated) (hr : s.get id = .ok (some r)) :
    (s.indexOf r.workerId).get? id = some r.createdAt := by
  have hmem := (h.members id r.workerId).mpr (.inl ⟨r, hr, rfl⟩)
  obtain ⟨t, ht⟩ := Option.isSome_iff_exists.mp ((Keyed.mem_keys_iff _ _).mp hmem)
  rw [ht, h.scores id r t hr ht]

/-- An operation takes a worker from a job. -/
def Takes (s s' : JobStore) (id w : String) : Prop := s.HasWorker id w ∧ ¬ s'.HasWorker id w

/-- An operation changes the time of creation of a job. -/
def Redates (s s' : JobStore) (id : String) : Prop :=
  ∃ r r', s.get id = .ok (some r) ∧ s'.get id = .ok (some r') ∧ r'.createdAt ≠ r.createdAt

/-- A row keeps the time with which it was first written. -/
theorem Indexed.dates_wrote (h : s.Indexed Former Redated) (hwrote : s.Wrote r s') (hr : r.Proper)
    {row : JobColumns} {r' : JobRecord} (hrow : s'.columns.get? id = some row) (hr' : s'.get id = .ok (some r')) :
    row.createdAt = r'.createdAt ∨ Redated id ∨ s.Redates s' id := by
  have hself := hwrote.get_self hr
  rw [hwrote.columns] at hrow
  by_cases hid : id = r.jobId
  · subst hid
    obtain rfl := Option.some.inj ((Keyed.get?_put_self ..).symm.trans hrow)
    obtain rfl := Option.some.inj (Except.ok.inj (hself.symm.trans hr'))
    show ((s.columns.get? r.jobId).map JobColumns.createdAt).getD r.createdAt = r.createdAt ∨ _
    cases hold : s.columns.get? r.jobId with
    | none => exact .inl rfl
    | some old =>
      -- the time that the row has was that of the record before
      obtain ⟨r₀, hr₀, -⟩ := (h.rows r.jobId old.workerId).mp (by rw [hold, Option.map_some])
      rcases h.dates _ old r₀ hold hr₀ with hsame | hredated
      · by_cases hkept : r.createdAt = r₀.createdAt
        · exact .inl (hsame.trans hkept.symm)
        · exact .inr (.inr ⟨r₀, _, hr₀, hself, hkept⟩)
      · exact .inr (.inl hredated)
  · rw [Keyed.get?_put_of_ne _ _ hid] at hrow
    exact (h.dates id row r' hrow ((hwrote.get_of_ne hid).symm.trans hr')).imp_right .inl

/-- **A write leaves rows and indexes that tell of the records**, when the record is found under its worker. -/
theorem Indexed.wrote (h : s.Indexed Former Redated) (hwrote : s.Wrote r s') (hr : r.Proper)
    (hnodup : ∀ w, (s'.indexOf w).keys.Nodup)
    (hindex : ∀ id w, (s'.indexOf w).get? id
      = if id = r.jobId ∧ w = r.workerId then some r.createdAt else (s.indexOf w).get? id) :
    s'.Indexed (fun id w => Former id w ∨ s.Takes s' id w) fun id => Redated id ∨ s.Redates s' id := by
  obtain ⟨held, -, hrecords⟩ := hwrote.records
  have hhas := hwrote.hasWorker hr
  have hself := hwrote.get_self hr
  refine ⟨?_, ?_, hnodup, fun id w => ?_, fun id row r' hrow hr' => ?_, fun id w => ?_, fun id r' t hr' ht => ?_⟩
  · rw [hrecords]
    exact Keyed.nodup_keys_put h.ids _ _
  · rw [hwrote.columns]
    exact Keyed.nodup_keys_put h.rowIds _ _
  · rw [hhas, hwrote.columns]
    split
    · next hid =>
      subst hid
      rw [Keyed.get?_put_self, Option.map_some, Option.some.injEq]
      rfl
    · next hid =>
      rw [Keyed.get?_put_of_ne _ _ hid]
      exact h.rows id w
  · exact h.dates_wrote hwrote hr hrow hr'
  · have hbefore := h.members id w
    rw [Keyed.mem_keys_iff, Keyed.has] at hbefore ⊢
    rw [hindex, Takes, hhas]
    by_cases hid : id = r.jobId
    · rw [if_pos hid]
      by_cases hw : w = r.workerId
      · rw [if_pos ⟨hid, hw⟩]
        exact ⟨fun _ => .inl hw.symm, fun _ => rfl⟩
      · -- the job leaves the worker that it named before, but not the index
        rw [if_neg fun hand => hw hand.2, hbefore]
        have hw : ¬ r.workerId = w := fun heq => hw heq.symm
        tauto
    · rw [if_neg hid, if_neg fun hand => hid hand.1, hbefore]
      tauto
  · rw [hindex] at ht
    by_cases hid : id = r.jobId
    · subst hid
      obtain rfl := Option.some.inj (Except.ok.inj (hself.symm.trans hr'))
      rw [if_pos ⟨rfl, rfl⟩] at ht
      exact (Option.some.inj ht).symm
    · rw [if_neg fun hand => hid hand.1] at ht
      exact h.scores id r' t ((hwrote.get_of_ne hid).symm.trans hr') ht

/-- **An operation leaves rows and indexes that tell of the records.** -/
theorem Indexed.answers {op : StoreOp} {answer : Except Fault StoreAnswer} (h : s.Indexed Former Redated)
    (hs : s.Sound) (hnow : now.Proper) (hanswers : s.Answers now op answer s') :
    s'.Indexed (fun id w => Former id w ∨ s.Takes s' id w) fun id => Redated id ∨ s.Redates s' id := by
  cases hanswers with
  | none => exact h.mono (fun id w => or_iff_left fun htakes => htakes.2 htakes.1) fun _ => .inl
  | @written _ id updates existing r _ hop hread hr hwrote hnoted =>
    obtain ⟨found, hfound, hfiled⟩ := hs id
    obtain rfl := Except.ok.inj (hread.symm.trans hfound)
    have hproper := (JobRecord.proper_of_update (fun e he => (hfiled e he).proper) hnow hr).1
    have hindex (w : String) : s'.indexOf w
        = if w = r.workerId then (s.indexOf w).put r.jobId r.createdAt else s.indexOf w := by
      rw [← indexOf_note, indexOf, hnoted, indexOf]
    refine h.wrote hwrote hproper (fun w => ?_) fun id w => ?_
    · rw [hindex]
      split
      · exact Keyed.nodup_keys_put (h.indexIds w) _ _
      · exact h.indexIds w
    · rw [hindex]
      by_cases hw : w = r.workerId
      · rw [if_pos hw]
        by_cases hid : id = r.jobId
        · rw [if_pos ⟨hid, hw⟩, hid, Keyed.get?_put_self]
        · rw [if_neg fun hand => hid hand.1, Keyed.get?_put_of_ne _ _ hid]
      · rw [if_neg hw, if_neg fun hand => hw hand.2]
  | @child id child parent _ hread hwrote hunnoted =>
    obtain ⟨found, hfound, hfiled⟩ := hs id
    obtain rfl := Except.ok.inj (hread.symm.trans hfound)
    have hparent := hfiled parent rfl
    have hindex (w : String) : s'.indexOf w = s.indexOf w := by rw [indexOf, hunnoted, indexOf]
    refine h.wrote hwrote ⟨hparent.proper.createdAt, hnow, hparent.proper.completedAt⟩ (fun w => ?_) fun id' w => ?_
    · rw [hindex]
      exact h.indexIds w
    · -- the job is in the index of its worker already
      rw [hindex]
      split
      · next hand =>
        obtain ⟨rfl, rfl⟩ := hand
        show (s.indexOf parent.workerId).get? parent.jobId = some parent.createdAt
        rw [hparent.jobId]
        exact h.get?_indexOf hread
      · rfl

/-! ## Listings -/

theorem Sound.readable (h : s.Sound) : s.records.Readable := fun id => (h id).imp fun _ => And.left

theorem Sound.known_iff (h : s.Sound) : s.records.known id = some r ↔ s.get id = .ok (some r) :=
  h.readable.known_iff

theorem Sound.filed_of_known (h : s.Sound) (hr : s.records.known id = some r) : r.Filed s.backend id := by
  obtain ⟨existing, hread, hfiled⟩ := h id
  obtain rfl := Except.ok.inj ((h.known_iff.mp hr).symm.trans hread)
  exact hfiled r rfl

/-- **The jobs of a worker can be put in order**: for all of them the zone of their time is known, or for
    none. -/
def OneKind (s : JobStore) (w : String) : Prop :=
  ∀ r r', s.get r.jobId = .ok (some r) → s.get r'.jobId = .ok (some r') → r.workerId = w → r'.workerId = w →
    r.createdAt.offset.isSome = r'.createdAt.offset.isSome

/-- Where the zone of every time of creation is known, the jobs of each worker can be put in order. -/
theorem Sound.oneKind_of_zoned (h : s.Sound)
    (hzoned : ∀ id ∈ s.records.keys, (s.records.known id).all (fun r => r.createdAt.offset.isSome) = true) (w : String) :
    s.OneKind w := by
  have hknown (r : JobRecord) (hr : s.get r.jobId = .ok (some r)) : r.createdAt.offset.isSome = true := by
    have hall := hzoned r.jobId (Keyed.mem_keys_of_read hr)
    rwa [h.known_iff.mpr hr, Option.all_some] at hall
  exact fun r r' hr hr' _ _ => (hknown r hr).trans (hknown r' hr').symm

end JobStore

/-- **When a listing shows which of two jobs is older.** Tables sort by the time at which a row was first written,
    one of them by its text; a key-value store sorts by doubles, and does not know the times of jobs that have
    another worker by now. -/
def Backend.Orders (b : Backend) (Redated : String → Prop) (w : String) (r r' : JobRecord) : Prop :=
  match b with
  | .memory => True
  | .sqlite => (¬ Redated r.jobId ∧ ¬ Redated r'.jobId) ∧ r.createdAt.offset = r'.createdAt.offset
  | .postgres => ¬ Redated r.jobId ∧ ¬ Redated r'.jobId
  | .redis => (r.workerId = w ∧ r'.workerId = w) ∧ r.createdAt.Sharp ∧ r'.createdAt.Sharp

namespace JobStore

variable {s : JobStore} {Former : String → String → Prop} {Redated : String → Prop} {w : String}

/-- **The jobs of a worker** in the order of a list, as far as the backend can tell. -/
structure ListsJobs (s : JobStore) (Former : String → String → Prop) (Redated : String → Prop) (w : String)
    (rs : List JobRecord) : Prop where
  lists : Lists JobRecord.jobId s.records.known
    (fun r => r.workerId = w ∨ s.backend = .redis ∧ Former r.jobId w) rs
  ordered : rs.Pairwise fun r r' => s.backend.Orders Redated w r r' → r'.createdAt.instant ≤ r.createdAt.instant

/-- **Jobs are read under ids** that are those of the jobs of a worker. -/
theorem Sound.lists_ids (hs : s.Sound) {ids : List String} (hids : ids.Nodup)
    (hmeant : ∀ id, id ∈ ids ↔ s.HasWorker id w ∨ s.backend = .redis ∧ Former id w)
    (hordered : ids.Pairwise fun id id' => ∀ r r', s.records.known id = some r → s.records.known id' = some r' →
      s.backend.Orders Redated w r r' → r'.createdAt.instant ≤ r.createdAt.instant) :
    ∃ rs, s.records.readMany ids = .ok rs ∧ s.ListsJobs Former Redated w rs := by
  have hkey := fun id r (hr : s.records.known id = some r) => (hs.filed_of_known hr).jobId
  refine ⟨_, hs.readable.readMany_eq _, (lists_filterMap hids hkey).congr fun r hr => ?_, ?_⟩
  · rw [hmeant]
    refine or_congr_left ⟨?_, fun hw => ⟨r, hs.known_iff.mp hr, hw⟩⟩
    rintro ⟨found, hfound, hw⟩
    obtain rfl := Option.some.inj (hr.symm.trans (hs.known_iff.mpr hfound))
    exact hw
  · exact (pairwise_filterMap hordered hkey).imp fun ⟨hr, hr', hle⟩ => hle _ _ hr hr'

/-- In memory, the records are looked through. -/
theorem Indexed.listByWorker_memory (h : s.Indexed Former Redated) (hs : s.Sound) (hb : s.backend = .memory)
    (hkind : s.OneKind w) : ∃ rs, s.listByWorker w = .ok rs ∧ s.ListsJobs Former Redated w rs := by
  have hkey := fun id r (hr : s.records.known id = some r) => (hs.filed_of_known hr).jobId
  have hseen : Lists JobRecord.jobId s.records.known _ _ := lists_filterMap h.ids hkey
  have hmine := hseen.filter fun r => r.workerId = w
  have hread : s.records.readMany s.records.keys = .ok (s.records.keys.filterMap s.records.known) :=
    hs.readable.readMany_eq _
  generalize hall : s.records.keys.filterMap s.records.known = all at hmine hread
  have hcomparable : Stamp.comparable ((all.filter fun r => r.workerId = w).map JobRecord.createdAt) = true := by
    refine Stamp.comparable_of_sameKind fun t ht t' ht' => ?_
    obtain ⟨r, hr, rfl⟩ := List.mem_map.mp ht
    obtain ⟨r', hr', rfl⟩ := List.mem_map.mp ht'
    obtain ⟨hread, -, hw⟩ := (hmine.mem r).mp hr
    obtain ⟨hread', -, hw'⟩ := (hmine.mem r').mp hr'
    exact hkind r r' (hs.known_iff.mp hread) (hs.known_iff.mp hread') (of_decide_eq_true hw) (of_decide_eq_true hw')
  have hlist : s.listByWorker w
      = .ok (newestFirst (fun r => r.createdAt.instant) (all.filter fun r => r.workerId = w)) := by
    unfold listByWorker
    rw [hb, hread]
    exact if_pos hcomparable
  refine ⟨_, hlist, (hmine.perm (perm_newestFirst _ _)).congr fun r hr => ?_, ?_⟩
  · have hseen : r.jobId ∈ s.records.keys := Keyed.mem_keys_of_read (hs.known_iff.mp hr)
    rw [and_iff_right hseen, decide_eq_true_iff, or_iff_left fun hand => Backend.noConfusion (hb.symm.trans hand.1)]
  · refine (pairwise_newestFirst (fun r : JobRecord => r.createdAt.instant) _).imp ?_
    exact fun hle _ => hle

/-- A job has a row, with its time of creation unless that was changed. -/
theorem Indexed.row_of_known (h : s.Indexed Former Redated) {id : String} {r : JobRecord}
    (hr : s.get id = .ok (some r)) (hkept : ¬ Redated id) :
    ∃ row, s.columns.get? id = some row ∧ row.createdAt = r.createdAt := by
  obtain ⟨row, hrow, -⟩ := Option.map_eq_some_iff.mp ((h.rows id r.workerId).mpr ⟨r, hr, rfl⟩)
  exact ⟨row, hrow, (h.dates id row r hrow hr).resolve_right hkept⟩

/-- In a table, the rows of a worker are sorted. -/
theorem Indexed.lists_rows (h : s.Indexed Former Redated) (hs : s.Sound) (hb : s.backend ≠ .redis)
    {rows : List (String × JobColumns)} (hrows : rows.Perm (s.rowsOf w)) {R : Stamp → Stamp → Prop}
    (hsorted : rows.Pairwise fun e e' => R e.2.createdAt e'.2.createdAt)
    (hR : ∀ r r', r.Proper → r'.Proper → s.backend.Orders Redated w r r' →
      (¬ Redated r.jobId ∧ ¬ Redated r'.jobId)
        ∧ (R r.createdAt r'.createdAt → r'.createdAt.instant ≤ r.createdAt.instant)) :
    ∃ rs, s.records.readMany (rows.map (·.1)) = .ok rs ∧ s.ListsJobs Former Redated w rs := by
  have hsub : ∀ e ∈ rows, e ∈ s.columns := fun e he => List.mem_of_mem_filter (hrows.mem_iff.mp he)
  have hordered := Keyed.pairwise_keys (R := fun row row' => R row.createdAt row'.createdAt) h.rowIds hsub hsorted
  refine hs.lists_ids (Keyed.nodup_keys_of_perm h.rowIds hrows) (fun id => ?_) (hordered.imp ?_)
  · refine (Keyed.mem_keys_of_perm h.rowIds hrows id).trans ?_
    rw [or_iff_left fun hand => hb hand.1, ← h.rows, Option.map_eq_some_iff]
    simp only [decide_eq_true_eq]
  · intro id id' hle r r' hr hr' horders
    have hfiled := hs.filed_of_known hr
    have hfiled' := hs.filed_of_known hr'
    obtain ⟨⟨hkept, hkept'⟩, hinstant⟩ := hR r r' hfiled.proper hfiled'.proper horders
    obtain ⟨row, hrow, hdate⟩ := h.row_of_known (hs.known_iff.mp hr) (hfiled.jobId ▸ hkept)
    obtain ⟨row', hrow', hdate'⟩ := h.row_of_known (hs.known_iff.mp hr') (hfiled'.jobId ▸ hkept')
    exact hinstant (hdate ▸ hdate' ▸ hle row row' hrow hrow')

/-- In a key-value store, the members of an index are ranked. -/
theorem Indexed.lists_ranked (h : s.Indexed Former Redated) (hs : s.Sound) (hb : s.backend = .redis) :
    ∃ rs, s.records.readMany (ranked (s.indexOf w)) = .ok rs ∧ s.ListsJobs Former Redated w rs := by
  refine hs.lists_ids ((perm_ranked _).nodup_iff.mpr (h.indexIds w)) (fun id => ?_)
    ((pairwise_ranked (h.indexIds w)).imp ?_)
  · rw [(perm_ranked _).mem_iff, h.members, and_iff_right hb]
  · intro id id' hle r r' hr hr' horders
    rw [hb] at horders
    obtain ⟨⟨rfl, hworker'⟩, hsharp, hsharp'⟩ := horders
    have hscore := h.get?_indexOf (hs.known_iff.mp hr)
    have hscore' := h.get?_indexOf (hs.known_iff.mp hr')
    rw [hworker'] at hscore'
    exact Stamp.instant_le_of_score (hs.filed_of_known hr').proper.createdAt.micro
      (hs.filed_of_known hr).proper.createdAt.micro hsharp' hsharp (hle _ _ hscore hscore')

/-- **The jobs of a worker are listed.** -/
theorem Indexed.listByWorker (h : s.Indexed Former Redated) (hs : s.Sound)
    (hkind : s.backend = .memory → s.OneKind w) :
    ∃ rs, s.listByWorker w = .ok rs ∧ s.ListsJobs Former Redated w rs := by
  unfold JobStore.listByWorker
  cases hb : s.backend with
  | memory =>
    obtain ⟨rs, hrs, hlists⟩ := h.listByWorker_memory hs hb (hkind hb)
    unfold JobStore.listByWorker at hrs
    rw [hb] at hrs
    exact ⟨rs, hrs, hlists⟩
  | sqlite =>
    refine h.lists_rows hs (by rw [hb]; nofun) ((perm_lastTextFirst _ _).trans (List.reverse_perm _))
      (R := fun t t' => t'.isoText ≤ t.isoText) (pairwise_lastTextFirst _ _) fun r r' hr hr' horders => ?_
    rw [hb] at horders
    exact ⟨horders.1, Stamp.instant_le_of_isoText hr'.createdAt hr.createdAt horders.2.symm⟩
  | postgres =>
    refine h.lists_rows hs (by rw [hb]; nofun) (perm_newestFirst _ _)
      (R := fun t t' => t'.instant ≤ t.instant) (pairwise_newestFirst _ _) fun r r' _ _ horders => ?_
    rw [hb] at horders
    exact ⟨horders, id⟩
  | redis => exact h.lists_ranked hs hb

end JobStore

/-! ## Histories -/

namespace Stores

variable {s : Stores}

/-- **Some operation takes a worker from a job.** -/
def Reassigned (s : Stores) : List TimedOp → String → String → Prop
  | [], _, _ => False
  | c :: cs, id, w => s.jobs.Takes (s.carryOut c).2.jobs id w ∨ (s.carryOut c).2.Reassigned cs id w

/-- **Some operation changes the time of creation of a job.** -/
def Redated (s : Stores) : List TimedOp → String → Prop
  | [], _ => False
  | c :: cs, id => s.jobs.Redates (s.carryOut c).2.jobs id ∨ (s.carryOut c).2.Redated cs id

/-- **Operations leave rows and indexes that tell of the records.** -/
theorem indexed_after {cs : List TimedOp} {Former : String → String → Prop} {Redated : String → Prop}
    (h : s.jobs.Indexed Former Redated) (hs : s.jobs.Sound) (hclock : ∀ c ∈ cs, c.clock < Stamp.lastMicro) :
    (s.after cs).jobs.Indexed (fun id w => Former id w ∨ s.Reassigned cs id w)
      fun id => Redated id ∨ s.Redated cs id := by
  induction cs generalizing s Former Redated with
  | nil => exact h.mono (fun _ _ => or_iff_left id) fun _ => .inl
  | cons c rest ih =>
    have hnow := Stamp.proper_ofMicros (hclock c List.mem_cons_self)
    refine (ih (h.answers hs hnow (s.jobs_answers c)) (hs.change hnow (s.change_carryOut c))
      fun d hd => hclock d (.tail _ hd)).mono (fun _ _ => or_assoc.symm) fun _ => or_assoc.mp

end Stores

/-- **What is listed for a worker.** After operations in order, each job that names the worker is listed once, as
    it is read; a key-value store lists the jobs that were taken from the worker as well. No job comes before a
    newer one where the backend can tell which of them is newer. -/
theorem jobs_listed_exactly {b : Backend} {cs : List TimedOp} (hclock : ∀ c ∈ cs, c.clock < Stamp.lastMicro)
    (clock : Clock) (w : String)
    (hkind : b = .memory → ((Stores.empty b).after cs).jobs.OneKind w) :
    let s := (Stores.empty b).after cs
    ∃ rs, (s.carryOut ⟨clock, .listJobs w⟩).1 = .ok (.jobs rs)
      ∧ (rs.map JobRecord.jobId).Nodup
      ∧ (∀ r, r ∈ rs ↔ s.jobs.get r.jobId = .ok (some r)
          ∧ (r.workerId = w ∨ b = .redis ∧ (Stores.empty b).Reassigned cs r.jobId w))
      ∧ rs.Pairwise fun r r' =>
          b.Orders ((Stores.empty b).Redated cs) w r r' → r'.createdAt.instant ≤ r.createdAt.instant := by
  intro s
  have hopen : s.isOpen = true := ((Stores.working_empty b).after cs).isOpen
  obtain ⟨hsound, hbackend⟩ := Stores.sound_after (JobStore.sound_empty b) hclock
  have hindexed := (Stores.indexed_after (JobStore.indexed_empty b) (JobStore.sound_empty b) hclock).mono
    (fun _ _ => (false_or _).to_iff.symm) fun _ => (false_or _).mp
  replace hbackend : s.jobs.backend = b := hbackend
  obtain ⟨rs, hrs, hlists, hordered⟩ := hindexed.listByWorker hsound fun hb => hkind (hbackend.symm.trans hb)
  rw [hbackend] at hlists hordered
  refine ⟨rs, ?_, hlists.distinct, fun r => ?_, hordered⟩
  · rw [Stores.carryOut, Stores.perform, if_pos hopen, Stores.performOpen, hrs]
    rfl
  · rw [hlists.mem, hsound.known_iff]

/-- A job that another worker is given after a newer one. -/
def handedOver : List TimedOp :=
  [⟨0, .setJob "thumbnail" [("worker_id", .text "resize")]⟩, ⟨1, .setJob "letter" [("worker_id", .text "send")]⟩,
    ⟨2, .updateJob "thumbnail" [("worker_id", .text "send")]⟩]

theorem handedOver_listed : (∀ c ∈ handedOver, c.clock < Stamp.lastMicro)
    ∧ ((Stores.empty .memory).after handedOver).jobs.OneKind "send"
    ∧ (let s := (Stores.empty .memory).after handedOver
      ∃ rs, (s.carryOut ⟨3, .listJobs "send"⟩).1 = .ok (.jobs rs)
        ∧ (rs.map JobRecord.jobId).Nodup
        ∧ (∀ r, r ∈ rs ↔ s.jobs.get r.jobId = .ok (some r) ∧ r.workerId = "send")
        ∧ rs.Pairwise fun r r' => r'.createdAt.instant ≤ r.createdAt.instant) := by
  have hclock : ∀ c ∈ handedOver, c.clock < Stamp.lastMicro := by decide
  have hkind : ((Stores.empty .memory).after handedOver).jobs.OneKind "send" :=
    (Stores.sound_after (JobStore.sound_empty .memory) hclock).1.oneKind_of_zoned (by decide +kernel) "send"
  obtain ⟨rs, hanswer, hdistinct, hmem, hordered⟩ := jobs_listed_exactly hclock 3 "send" fun _ => hkind
  refine ⟨hclock, hkind, rs, hanswer, hdistinct, fun r => ?_, hordered.imp fun hle => hle trivial⟩
  rw [hmem, or_iff_left fun hand => Backend.noConfusion hand.1]

end Runbook

import Runbook.Proofs.Listings
import Runbook.Proofs.QueueHistory
import Runbook.Proofs.RunHistory
import Runbook.Proofs.StampOrder

/-!
# `Proofs.QueueListings` — which queues are listed

A queue may be created again, under another name and at another time. A store in memory looks through the
records that stand now. The row of a table stays as it was first written, and an index of a key-value store
keeps all that was ever created. So a listing can be told from the creations of each record, and it is the one
that is meant as long as the first and the last creation of a record tell the same.

## Contents
- **Creations.** `QueueRecord.origin`, what no operation but a creation changes; `StoreOp.creation?` and
  `Stores.creations`.
- **Rows and indexes.** `QueueStore.Recounts`, what is kept beside the records, and what each operation makes
  of it.
- **Listings.** For each backend the ids that are listed, and `QueueStore.Recounts.list`.
- **Histories.** `queues_listed_exactly`.
-/

namespace Runbook

/-! ## Creations -/

/-- Whether a record belongs to a queue, or to any. -/
def QueueColumns.isOf (q : Option String) (c : QueueColumns) : Bool := q.all (· = c.queueId)

namespace QueueRecord

variable {r r' : QueueRecord} {now : Stamp}

/-- **With what a record was created.** -/
def origin (r : QueueRecord) : QueueColumns := ⟨r.queueId, r.createdAt⟩

theorem create_origin {id queueId workerId workerJobId : String} {metadata totalSteps : Value}
    (h : create id queueId workerId workerJobId metadata totalSteps now = .ok r) : r.origin = ⟨queueId, now⟩ := by
  have h := Fault.ofChecked_eq_ok.mp h
  simp only [Checked.seq_eq_ok, Checked.map_eq_ok] at h
  obtain ⟨_, _, ⟨_, -, rfl⟩, -, rfl⟩ := h
  rfl

theorem follow_origin (r : QueueRecord) (i : Nat) (told : Option String) (now : Stamp) :
    (r.follow i told now).origin = r.origin := by
  unfold follow
  split
  · rfl
  · split <;> rfl

theorem updateStep_origin {index : Value} {updates : Keyed Value} (h : r.updateStep index updates now = .ok r') :
    r'.origin = r.origin := by
  obtain ⟨position, -, h⟩ := Fault.bind_eq_ok.mp h
  split at h
  · exact congrArg origin (Except.ok.inj h).symm
  · obtain ⟨step, -, h⟩ := Fault.bind_eq_ok.mp h
    exact (congrArg origin (Except.ok.inj h).symm).trans (follow_origin ..)

theorem override_origin {status : Value} {updates : Keyed Value} {g : Option Fault}
    (h : r.override status updates now = (r', g)) : r'.origin = r.origin := by
  have hstatus : (r.withStatus status now).origin = r.origin := by
    unfold withStatus
    split <;> rfl
  cases g with
  | none =>
    obtain ⟨metadata, -, rfl⟩ := override_eq_none.mp h
    rw [← hstatus]
    unfold withFinish
    split <;> rfl
  | some f =>
    obtain ⟨-, rfl⟩ := override_eq_error.mp h
    exact hstatus

end QueueRecord

/-- The creation of a record that an operation is. -/
def StoreOp.creation? (now : Stamp) (id : String) : StoreOp → Except Fault StoreAnswer → Option QueueColumns
  | .createQueue created queueId .., .ok _ => if created = id then some ⟨queueId, now⟩ else none
  | _, _ => none

theorem StoreOp.creation?_of_spared {op : StoreOp} {now : Stamp} {id : String} {answer : Except Fault StoreAnswer}
    (h : (Call.store op).sparesQueues = true ∨ ∃ f, answer = .error f) : op.creation? now id answer = none := by
  rcases h with hspares | ⟨f, rfl⟩
  · cases op <;> first | rfl | exact absurd hspares nofun
  · cases op <;> rfl

theorem StoreOp.creation?_of_ne {op : StoreOp} {now : Stamp} {id : String} {answer : Except Fault StoreAnswer}
    (h : op.queue? ≠ some id) : op.creation? now id answer = none := by
  cases op with
  | createQueue created =>
    cases answer with
    | ok a => exact if_neg fun hid => h (congrArg some hid)
    | error f => rfl
  | _ => cases answer <;> rfl

/-- **The creations of a record**, the last one first, after those that are given. They are told from what
    operations in order answer. -/
def Stores.creations (s : Stores) (id : String) : List TimedOp → List QueueColumns → List QueueColumns
  | [], created => created
  | c :: cs, created => (s.carryOut c).2.creations id cs
      ((c.op.creation? (.ofMicros c.clock) id (s.carryOut c).1).toList ++ created)

theorem Stores.creations_of_ne {s : Stores} {id : String} {cs : List TimedOp} {created : List QueueColumns}
    (h : ∀ c ∈ cs, c.op.queue? ≠ some id) : s.creations id cs created = created := by
  induction cs generalizing s created with
  | nil => rfl
  | cons c rest ih =>
    obtain ⟨hc, hrest⟩ := List.forall_mem_cons.mp h
    rw [creations, ih hrest, StoreOp.creation?_of_ne hc]
    rfl

/-! ## Rows and indexes -/

/-- **A time of creation** as clocks tell it, that a backend can sort by. -/
structure Stamp.Clocked (b : Backend) (t : Stamp) : Prop where
  proper : t.Proper
  utc : t.offset = some 0
  sharp : b = .redis → t.Sharp

/-- **When a backend keeps track of a record** for the listing of a queue. A table goes by the first creation of
    the record, a key-value store by any that was for the queue. -/
def Backend.Tracks (b : Backend) (q : Option String) (created : List QueueColumns) : Prop :=
  match b with
  | .memory => True
  | .sqlite | .postgres => ∀ first ∈ created.getLast?, ∀ last ∈ created.head?,
    first.isOf q = last.isOf q ∧ (last.isOf q = true → first.createdAt = last.createdAt)
  | .redis => ∀ c ∈ created, c.isOf q = true → ∀ last ∈ created.head?, last.isOf q = true

/-- How many records are listed at most. -/
def Backend.listed (b : Backend) (limit : Int) : Nat :=
  match b with
  | .redis => (max limit 1).toNat
  | _ => limit.toNat

namespace QueueStore

variable {s s' : QueueStore} {r : QueueRecord} {op : StoreOp} {now : Stamp} {answer : Except Fault StoreAnswer}
  {created : String → List QueueColumns} {q : Option String}

/-- **What a store keeps beside its records** is told by their creations: a record is that of the last one, a
    row that of the first one, and an index has the last one that belongs to it. -/
structure Recounts (s : QueueStore) (created : String → List QueueColumns) : Prop where
  filed : s.Filed
  ids : s.records.keys.Nodup
  rowIds : s.columns.keys.Nodup
  indexIds : ∀ q, (s.indexOf q).keys.Nodup
  stored : ∀ id, id ∈ s.records.keys ↔ created id ≠ []
  current : ∀ id r, s.get id = .ok (some r) → (created id).head? = some r.origin
  rows : ∀ id, s.columns.get? id = (created id).getLast?
  scores : ∀ q id, (s.indexOf q).get? id = ((created id).find? (·.isOf q)).map QueueColumns.createdAt
  clocked : ∀ id, ∀ c ∈ created id, c.createdAt.Clocked s.backend
  live : s.backend = .memory → s.records.Readable

theorem Recounts.congr {created' : String → List QueueColumns} (h : s.Recounts created)
    (hsame : ∀ id, created' id = created id) : s.Recounts created' := by
  rwa [funext hsame]

theorem recounts_empty (b : Backend) : (Stores.empty b).queues.Recounts fun _ => [] where
  filed := filed_empty b
  ids := List.nodup_nil
  rowIds := List.nodup_nil
  indexIds q := by cases q <;> exact List.nodup_nil
  stored _ := by simp [Stores.empty, Keyed.keys]
  current _ _ := nofun
  rows _ := rfl
  scores q _ := by cases q <;> rfl
  clocked _ _ := nofun
  live _ _ := ⟨none, rfl⟩

theorem columns_of_keep (h : s.keep r = .ok s') :
    s'.columns = s.columns.put r.id ((s.columns.get? r.id).getD r.origin) := by
  obtain ⟨held, -, h⟩ := Fault.bind_eq_ok.mp h
  cases h
  rfl

theorem indexOf_of_keep (h : s.keep r = .ok s') (q : Option String) : s'.indexOf q = s.indexOf q := by
  obtain ⟨held, -, h⟩ := Fault.bind_eq_ok.mp h
  cases h
  rfl

theorem indexOf_note (s : QueueStore) (r : QueueRecord) (q : Option String) : (s.note r).indexOf q
    = if r.origin.isOf q then (s.indexOf q).put r.id r.createdAt else s.indexOf q := by
  cases q with
  | none => rfl
  | some q =>
    have hof : r.origin.isOf (some q) = true ↔ q = r.queueId := decide_eq_true_iff
    by_cases hq : q = r.queueId
    · rw [if_pos (hof.mpr hq), hq, indexOf, note, Keyed.get?_put_self, Option.getD_some, indexOf]
    · rw [if_neg (mt hof.mp hq), indexOf, note, Keyed.get?_put_of_ne _ _ hq, indexOf]

/-- What is read of a record that was kept has its origin. -/
theorem origin_of_keep (h : s.keep r = .ok s') (hproper : r.createdAt.Proper) {r' : QueueRecord}
    (hread : s'.get r.id = .ok (some r')) : r'.origin = r.origin := by
  obtain ⟨held, hheld, hkept⟩ := read_of_keep h hread
  obtain ⟨-, hqueue, hcreated⟩ := QueueRecord.of_hold hheld hkept
  rw [QueueRecord.origin, hqueue, hcreated hproper, QueueRecord.origin]

/-- In memory, a record that was kept can be read. -/
theorem live_of_keep (h : s.keep r = .ok s') (hlive : s.backend = .memory → s.records.Readable)
    (hb : s'.backend = .memory) : s'.records.Readable := by
  rw [backend_of_keep h] at hb
  intro id
  by_cases hid : id = r.id
  · obtain ⟨held, hheld, -, hget⟩ := keep_eq_ok h
    rw [hb] at hheld
    obtain rfl := Except.ok.inj hheld
    exact ⟨some r, hid ▸ hget⟩
  · obtain ⟨found, hfound⟩ := hlive hb id
    exact ⟨found, (get_of_keep_of_ne h hid).trans hfound⟩

theorem mem_keys_of_keep (h : s.keep r = .ok s') (id : String) :
    id ∈ s'.records.keys ↔ id = r.id ∨ id ∈ s.records.keys := by
  obtain ⟨held, -, hrecords⟩ := records_of_keep h
  rw [hrecords, Keyed.mem_keys_iff, Keyed.mem_keys_iff, Keyed.has, Keyed.has]
  by_cases hid : id = r.id
  · rw [hid, Keyed.get?_put_self]
    exact iff_of_true rfl (.inl rfl)
  · rw [Keyed.get?_put_of_ne _ _ hid, or_iff_right hid]

/-- **A creation** comes before all that were made before. -/
theorem Recounts.create (h : s.Recounts created) (hkeep : s.keep r = .ok s')
    (hclocked : r.createdAt.Clocked s.backend) :
    (s'.note r).Recounts (Function.update created r.id (r.origin :: created r.id)) where
  filed id r' hread := h.filed.keep hkeep id r' hread
  ids := by
    obtain ⟨held, -, hrecords⟩ := records_of_keep hkeep
    show s'.records.keys.Nodup
    rw [hrecords]
    exact Keyed.nodup_keys_put h.ids _ _
  rowIds := by
    show s'.columns.keys.Nodup
    rw [columns_of_keep hkeep]
    exact Keyed.nodup_keys_put h.rowIds _ _
  indexIds q := by
    rw [indexOf_note, indexOf_of_keep hkeep]
    split
    · exact Keyed.nodup_keys_put (h.indexIds q) _ _
    · exact h.indexIds q
  stored id := by
    refine (mem_keys_of_keep hkeep id).trans ?_
    by_cases hid : id = r.id
    · subst hid
      simp
    · rw [Function.update_of_ne hid, or_iff_right hid, h.stored]
  current id r' hread := by
    by_cases hid : id = r.id
    · subst hid
      rw [Function.update_self, List.head?_cons, origin_of_keep hkeep hclocked.proper hread]
    · rw [Function.update_of_ne hid]
      exact h.current id r' ((get_of_keep_of_ne hkeep hid).symm.trans hread)
  rows id := by
    show s'.columns.get? id = _
    rw [columns_of_keep hkeep]
    by_cases hid : id = r.id
    · subst hid
      rw [Keyed.get?_put_self, Function.update_self, List.getLast?_cons, h.rows]
    · rw [Keyed.get?_put_of_ne _ _ hid, Function.update_of_ne hid, h.rows]
  -- an index knows the latest creation of a queue only if it put it there
  scores q id := by
    rw [indexOf_note, indexOf_of_keep hkeep]
    by_cases hid : id = r.id
    · subst hid
      rw [Function.update_self, List.find?_cons]
      cases r.origin.isOf q with
      | true => exact Keyed.get?_put_self ..
      | false => exact h.scores q r.id
    · rw [Function.update_of_ne hid, ← h.scores]
      split
      · exact Keyed.get?_put_of_ne _ _ hid
      · rfl
  clocked id c hc := by
    show c.createdAt.Clocked s'.backend
    rw [backend_of_keep hkeep]
    by_cases hid : id = r.id
    · subst hid
      rw [Function.update_self] at hc
      rcases List.mem_cons.mp hc with rfl | hc
      · exact hclocked
      · exact h.clocked r.id c hc
    · rw [Function.update_of_ne hid] at hc
      exact h.clocked id c hc
  live hb := by
    have hlive : s'.records.Readable := live_of_keep hkeep h.live hb
    exact hlive

/-- **A record that is changed** keeps its origin. -/
theorem Recounts.keep (h : s.Recounts created) (hkeep : s.keep r = .ok s') {r₀ : QueueRecord}
    (hread : s.get r.id = .ok (some r₀)) (horigin : r.origin = r₀.origin) : s'.Recounts created := by
  have hlast := h.current r.id r₀ hread
  obtain ⟨rest, hrest⟩ := List.head?_eq_some_iff.mp hlast
  have hproper : r.createdAt.Proper := by
    have hclocked := h.clocked r.id r₀.origin (hrest ▸ List.mem_cons_self)
    rw [← horigin] at hclocked
    exact hclocked.proper
  exact {
    filed := h.filed.keep hkeep
    ids := by
      obtain ⟨held, -, hrecords⟩ := records_of_keep hkeep
      rw [hrecords]
      exact Keyed.nodup_keys_put h.ids _ _
    rowIds := by
      rw [columns_of_keep hkeep]
      exact Keyed.nodup_keys_put h.rowIds _ _
    indexIds := fun q => by
      rw [indexOf_of_keep hkeep]
      exact h.indexIds q
    stored := fun id => by
      rw [mem_keys_of_keep hkeep, h.stored, or_iff_right_of_imp]
      rintro rfl
      rw [hrest]
      exact List.cons_ne_nil _ _
    current := fun id r' hread' => by
      by_cases hid : id = r.id
      · subst hid
        rw [origin_of_keep hkeep hproper hread', horigin]
        exact hlast
      · exact h.current id r' ((get_of_keep_of_ne hkeep hid).symm.trans hread')
    rows := fun id => by
      rw [columns_of_keep hkeep]
      by_cases hid : id = r.id
      · subst hid
        rw [Keyed.get?_put_self, h.rows, hrest, List.getLast?_cons, Option.getD_some]
      · rw [Keyed.get?_put_of_ne _ _ hid, h.rows]
    -- indexes are not touched by a change
    scores := fun q id => by
      rw [indexOf_of_keep hkeep]
      exact h.scores q id
    clocked := by
      rw [backend_of_keep hkeep]
      exact h.clocked
    live := live_of_keep hkeep h.live }

/-- **An operation leaves rows and indexes** that are told by the creations. -/
theorem Recounts.change (h : s.Recounts created) (hnow : now.Clocked s.backend)
    (hchange : s.Change now op answer s') :
    s'.Recounts fun id => (op.creation? now id answer).toList ++ created id := by
  cases hchange with
  | none hnone =>
    simp only [StoreOp.creation?_of_spared hnone]
    exact h
  -- what is kept has the id and the origin of what was read, unless it is new
  | spoiled _ hread hpart hkeep =>
    obtain rfl := h.filed _ _ hread
    rw [← QueueRecord.override_id hpart] at hread
    exact h.keep hkeep hread (QueueRecord.override_origin hpart)
  | @written _ r _ hmade hkeep =>
    cases hmade with
    | created hcreate =>
      obtain rfl := QueueRecord.create_id hcreate
      have horigin := QueueRecord.create_origin hcreate
      have hnow' : r.createdAt.Clocked s.backend := by
        rw [show r.createdAt = now from congrArg QueueColumns.createdAt horigin]
        exact hnow
      refine (h.create hkeep hnow').congr fun id => ?_
      by_cases hid : id = r.id
      · subst hid
        rw [Function.update_self, StoreOp.creation?, if_pos rfl, horigin]
        rfl
      · rw [Function.update_of_ne hid, StoreOp.creation?, if_neg (Ne.symm hid)]
        rfl
    | appended hread =>
      obtain rfl := h.filed _ _ hread
      exact h.keep hkeep hread rfl
    | stepped hread hstep =>
      obtain rfl := h.filed _ _ hread
      rw [← QueueRecord.updateStep_id hstep] at hread
      exact h.keep hkeep hread (QueueRecord.updateStep_origin hstep)
    | overridden hread hset =>
      obtain rfl := h.filed _ _ hread
      rw [← QueueRecord.override_id hset] at hread
      exact h.keep hkeep hread (QueueRecord.override_origin hset)

/-! ## Listings -/

/-- **The records of a queue** from the newest to the oldest. -/
structure ListsQueues (s : QueueStore) (q : Option String) (rs : List QueueRecord) : Prop where
  lists : Lists QueueRecord.id s.records.known (fun r => r.origin.isOf q = true) rs
  ordered : rs.Pairwise fun r r' => r'.createdAt.instant ≤ r.createdAt.instant

/-- **Records are read under the first of some ids**, which are those of the records of a queue. -/
theorem Recounts.lists_ids (h : s.Recounts created) (hread : s.records.Readable) {ids : List String}
    (hids : ids.Nodup) (hmem : ∀ id, id ∈ ids ↔ ∃ c, (created id).head? = some c ∧ c.isOf q = true)
    (hordered : ids.Pairwise fun id id' => ∀ c c', (created id).head? = some c → (created id').head? = some c' →
      c.isOf q = true → c'.isOf q = true → c'.createdAt.instant ≤ c.createdAt.instant) (n : Nat) :
    ∃ rs, s.records.readMany (ids.take n) = .ok (rs.take n) ∧ s.ListsQueues q rs := by
  have hcurrent (id : String) (r : QueueRecord) (hr : s.records.known id = some r) :
      r.id = id ∧ (created id).head? = some r.origin :=
    have hget : s.get id = .ok (some r) := hread.known_iff.mp hr
    ⟨h.filed id r hget, h.current id r hget⟩
  have hkey := fun id r hr => (hcurrent id r hr).1
  have hlists := lists_filterMap hids hkey
  refine ⟨ids.filterMap s.records.known, ?_, hlists.congr fun r hr => ?_, ?_⟩
  · rw [hread.readMany_eq, filterMap_take fun id hid => ?_]
    obtain ⟨c, hc, -⟩ := (hmem id).mp hid
    exact hread.known_of_mem ((h.stored id).mpr fun hnil => by simp [hnil] at hc)
  · rw [hmem, (hcurrent _ r hr).2]
    simp
  · refine (pairwise_filterMap hordered hkey).imp_of_mem fun {r r'} hr hr' ⟨hknown, hknown', hle⟩ => ?_
    have hof (r : QueueRecord) (hr : r ∈ ids.filterMap s.records.known) : r.origin.isOf q = true := by
      obtain ⟨hknown, hid⟩ := (hlists.mem r).mp hr
      obtain ⟨c, hc, hof⟩ := (hmem r.id).mp hid
      rwa [Option.some.inj (hc.symm.trans (hcurrent _ r hknown).2)] at hof
    show r'.origin.createdAt.instant ≤ r.origin.createdAt.instant
    exact hle _ _ (hcurrent _ r hknown).2 (hcurrent _ r' hknown').2 (hof r hr) (hof r' hr')

/-- In memory, the records are looked through. -/
theorem Recounts.list_memory (h : s.Recounts created) (hread : s.records.Readable) (hb : s.backend = .memory)
    {limit : Int} (hlimit : 0 ≤ limit) :
    ∃ rs, s.list q limit = .ok (rs.take limit.toNat) ∧ s.ListsQueues q rs := by
  have hkey (id : String) (r : QueueRecord) (hr : s.records.known id = some r) : r.id = id :=
    h.filed id r (hread.known_iff.mp hr)
  have hall : Lists QueueRecord.id s.records.known _ _ := lists_filterMap h.ids hkey
  have hmine := (hall.filter fun r => q.all (· = r.queueId)).perm (perm_newestFirst (fun r => r.createdAt.instant) _)
  refine ⟨_, ?_, hmine.congr fun r hr => and_iff_right ?_, pairwise_newestFirst _ _⟩
  · unfold QueueStore.list
    rw [hb, hread.readMany_eq]
    show Except.ok (firstItems limit _) = _
    rw [firstItems, if_neg (Int.not_lt.mpr hlimit)]
  · exact Keyed.mem_keys_of_read (hread.known_iff.mp hr)

/-- In a table, the rows of a queue are sorted. -/
theorem Recounts.lists_rows (h : s.Recounts created) (hread : s.records.Readable)
    (htracks : ∀ id, Backend.sqlite.Tracks q (created id)) {rows : List (String × QueueColumns)}
    (hrows : rows.Perm (s.rowsOf q)) {R : Stamp → Stamp → Prop}
    (hsorted : rows.Pairwise fun e e' => R e.2.createdAt e'.2.createdAt)
    (hR : ∀ t t', t.Clocked s.backend → t'.Clocked s.backend → R t t' → t'.instant ≤ t.instant) (n : Nat) :
    ∃ rs, s.records.readMany ((rows.take n).map (·.1)) = .ok (rs.take n) ∧ s.ListsQueues q rs := by
  have hsub : ∀ e ∈ rows, e ∈ s.columns := fun e he => List.mem_of_mem_filter (hrows.mem_iff.mp he)
  have hordered := Keyed.pairwise_keys (R := fun row row' => R row.createdAt row'.createdAt) h.rowIds hsub hsorted
  -- the first and the last creation of a record
  have hends (id : String) (c : QueueColumns) (hc : (created id).head? = some c) :
      ∃ row, s.columns.get? id = some row ∧ row ∈ created id ∧ row.isOf q = c.isOf q
        ∧ (c.isOf q = true → row.createdAt = c.createdAt) := by
    obtain ⟨rest, hrest⟩ := List.head?_eq_some_iff.mp hc
    obtain ⟨row, hrow⟩ : ∃ row, (created id).getLast? = some row := by
      rw [hrest, List.getLast?_cons]
      exact ⟨_, rfl⟩
    exact ⟨row, (h.rows id).trans hrow, List.mem_of_getLast? hrow, htracks id row hrow c hc⟩
  rw [List.map_take]
  refine h.lists_ids hread (Keyed.nodup_keys_of_perm h.rowIds hrows) (fun id => ?_) (hordered.imp ?_) n
  · refine (Keyed.mem_keys_of_perm h.rowIds hrows id).trans ⟨?_, ?_⟩
    · rintro ⟨row, hrow, hof⟩
      rw [h.rows] at hrow
      have hlast := List.head?_eq_some_head (List.ne_nil_of_mem (List.mem_of_getLast? hrow))
      exact ⟨_, hlast, ((htracks id row hrow _ hlast).1).symm.trans hof⟩
    · rintro ⟨c, hc, hof⟩
      obtain ⟨row, hrow, -, hsame, -⟩ := hends id c hc
      exact ⟨row, hrow, hsame.trans hof⟩
  · intro id id' hle c c' hc hc' hof hof'
    obtain ⟨row, hrow, hmem, -, hdate⟩ := hends id c hc
    obtain ⟨row', hrow', hmem', -, hdate'⟩ := hends id' c' hc'
    rw [← hdate hof, ← hdate' hof']
    exact hR _ _ (h.clocked id row hmem) (h.clocked id' row' hmem') (hle row row' hrow hrow')

/-- In a key-value store, the members of an index are ranked. -/
theorem Recounts.lists_ranked (h : s.Recounts created) (hread : s.records.Readable) (hb : s.backend = .redis)
    (htracks : ∀ id, Backend.redis.Tracks q (created id)) (n : Nat) :
    ∃ rs, s.records.readMany ((ranked (s.indexOf q)).take n) = .ok (rs.take n) ∧ s.ListsQueues q rs := by
  have hscore (id : String) (c : QueueColumns) (hc : (created id).head? = some c) (hof : c.isOf q = true) :
      (s.indexOf q).get? id = some c.createdAt ∧ c.createdAt.Clocked s.backend := by
    obtain ⟨rest, hrest⟩ := List.head?_eq_some_iff.mp hc
    rw [h.scores, hrest, List.find?_cons_of_pos hof, Option.map_some]
    exact ⟨rfl, h.clocked id c (hrest ▸ List.mem_cons_self)⟩
  refine h.lists_ids hread ((perm_ranked _).nodup_iff.mpr (h.indexIds q)) (fun id => ?_)
    ((pairwise_ranked (h.indexIds q)).imp ?_) n
  · rw [(perm_ranked _).mem_iff, Keyed.mem_keys_iff, Keyed.has]
    constructor
    · intro hsome
      rw [h.scores, Option.isSome_map, List.find?_isSome] at hsome
      obtain ⟨c, hc, hof⟩ := hsome
      have hlast := List.head?_eq_some_head (List.ne_nil_of_mem hc)
      exact ⟨_, hlast, htracks id c hc hof _ hlast⟩
    · rintro ⟨c, hc, hof⟩
      rw [(hscore id c hc hof).1, Option.isSome_some]
  · intro id id' hle c c' hc hc' hof hof'
    obtain ⟨hget, hclocked⟩ := hscore id c hc hof
    obtain ⟨hget', hclocked'⟩ := hscore id' c' hc' hof'
    exact Stamp.instant_le_of_score hclocked'.proper.micro hclocked.proper.micro (hclocked'.sharp hb)
      (hclocked.sharp hb) (hle _ _ hget hget')

/-- **The records of a queue are listed**, as long as the backend keeps track of them. -/
theorem Recounts.list (h : s.Recounts created) (hread : s.records.Readable)
    (htracks : ∀ id, s.backend.Tracks q (created id)) {limit : Int} (hlimit : 0 ≤ limit)
    (hcolumn : s.backend = .sqlite → limit < 2 ^ 63) :
    ∃ rs, s.list q limit = .ok (rs.take (s.backend.listed limit)) ∧ s.ListsQueues q rs := by
  cases hb : s.backend with
  | memory => exact h.list_memory hread hb hlimit
  | sqlite =>
    have hfits : isColumnNumber limit = true := by
      have := hcolumn hb
      simp only [isColumnNumber, Nat.pow_eq, Bool.and_eq_true, decide_eq_true_eq]
      omega
    unfold QueueStore.list
    rw [hb]
    dsimp only
    rw [if_pos hfits, if_neg (Int.not_lt.mpr hlimit)]
    refine h.lists_rows hread (hb ▸ htracks) (perm_lastTextFirst _ _) (R := fun t t' => t'.isoText ≤ t.isoText)
      (pairwise_lastTextFirst _ _) (fun t t' ht ht' => ?_) _
    exact Stamp.instant_le_of_isoText ht'.proper ht.proper (ht'.utc.trans ht.utc.symm)
  | postgres =>
    have htracks : ∀ id, Backend.postgres.Tracks q (created id) := hb ▸ htracks
    unfold QueueStore.list
    rw [hb]
    dsimp only
    rw [if_neg (Int.not_lt.mpr hlimit)]
    exact h.lists_rows hread htracks (perm_newestFirst _ _) (R := fun t t' => t'.instant ≤ t.instant)
      (pairwise_newestFirst _ _) (fun _ _ _ _ => id) _
  | redis =>
    unfold QueueStore.list
    rw [hb]
    exact h.lists_ranked hread hb (hb ▸ htracks) _

end QueueStore

/-! ## Histories -/

namespace Stores

variable {s : Stores} {cs : List TimedOp}

/-- **Operations leave rows and indexes** that are told by the creations. -/
theorem recounts_after {created : String → List QueueColumns} (h : s.queues.Recounts created)
    (hclock : ∀ c ∈ cs, (Stamp.ofMicros c.clock).Clocked s.queues.backend) :
    (s.after cs).queues.Recounts (fun id => s.creations id cs (created id))
      ∧ (s.after cs).queues.backend = s.queues.backend := by
  induction cs generalizing s created with
  | nil => exact ⟨h, rfl⟩
  | cons c rest ih =>
    have hchange := s.queues_change c
    have hbackend := hchange.backend_eq
    obtain ⟨hrest, hsame⟩ := ih (h.change (hclock c List.mem_cons_self) hchange)
      fun d hd => hbackend.symm ▸ hclock d (.tail _ hd)
    exact ⟨hrest, hsame.trans hbackend⟩

end Stores

/-- **What is listed of a queue.** After operations in order, the records of the queue, or all of them, are put in
    order from the newest to the oldest, each once and as it is read, and as many as the limit says are listed
    from the first on. This takes that documents can be read, and that the backend keeps track of the records and
    can tell their times apart; a key-value store reads a limit of zero as one. -/
theorem queues_listed_exactly {b : Backend} {cs : List TimedOp} (hclock : ∀ c ∈ cs, c.clock < Stamp.lastMicro)
    (hsharp : b = .redis → ∀ c ∈ cs, (Stamp.ofMicros c.clock).Sharp) (clock : Clock) (q : Option String)
    {limit : Int} (hlimit : 0 ≤ limit) (hcolumn : b = .sqlite → limit < 2 ^ 63)
    (hread : b ≠ .memory → ((Stores.empty b).after cs).queues.records.Readable)
    (htracks : ∀ id, b.Tracks q ((Stores.empty b).creations id cs [])) :
    let s := (Stores.empty b).after cs
    ∃ rs : List QueueRecord, (s.carryOut ⟨clock, .listQueues q limit⟩).1 = .ok (.queues (rs.take (b.listed limit)))
      ∧ (rs.map QueueRecord.id).Nodup
      ∧ (∀ r, r ∈ rs ↔ s.queues.get r.id = .ok (some r) ∧ q.all (· = r.queueId) = true)
      ∧ rs.Pairwise fun r r' => r'.createdAt.instant ≤ r.createdAt.instant := by
  intro s
  have hopen : s.isOpen = true := ((Stores.working_empty b).after cs).isOpen
  obtain ⟨hrecounts, hbackend⟩ := Stores.recounts_after (QueueStore.recounts_empty b) fun c hc =>
    ⟨Stamp.proper_ofMicros (hclock c hc), rfl, fun hb => hsharp hb c hc⟩
  replace hbackend : s.queues.backend = b := hbackend
  have hread : s.queues.records.Readable := by
    by_cases hb : b = .memory
    · exact hrecounts.live (hbackend.trans hb)
    · exact hread hb
  obtain ⟨rs, hrs, hlists⟩ := hrecounts.list hread (fun id => by rw [hbackend]; exact htracks id) hlimit
    fun hb => hcolumn (hbackend.symm.trans hb)
  rw [hbackend] at hrs
  refine ⟨rs, ?_, hlists.lists.distinct, fun r => ?_, hlists.ordered⟩
  · rw [Stores.carryOut, Stores.perform, if_pos hopen, Stores.performOpen, hrs]
    rfl
  · exact (hlists.lists.mem r).trans (and_congr_left fun _ => hread.known_iff)

/-- A record that is created again for the same queue. -/
def redone : List TimedOp :=
  [⟨0, .createQueue "cats" "images" "resize" "r-1" .null .null⟩,
    ⟨1, .createQueue "dogs" "images" "resize" "r-2" .null .null⟩,
    ⟨2, .createQueue "cats" "images" "resize" "r-3" .null .null⟩]

theorem redone_listed : (∀ c ∈ redone, c.clock < Stamp.lastMicro)
    ∧ (∀ c ∈ redone, (Stamp.ofMicros c.clock).Sharp)
    ∧ ((Stores.empty .redis).after redone).queues.records.Readable
    ∧ (∀ id, Backend.redis.Tracks (some "images") ((Stores.empty .redis).creations id redone []))
    ∧ (let s := (Stores.empty .redis).after redone
      ∃ rs : List QueueRecord, (s.carryOut ⟨3, .listQueues (some "images") 1⟩).1 = .ok (.queues (rs.take 1))
        ∧ (rs.map QueueRecord.id).Nodup
        ∧ (∀ r, r ∈ rs ↔ s.queues.get r.id = .ok (some r) ∧ (some "images").all (· = r.queueId) = true)
        ∧ rs.Pairwise fun r r' => r'.createdAt.instant ≤ r.createdAt.instant) := by
  have hclock : ∀ c ∈ redone, c.clock < Stamp.lastMicro := by decide
  have hsharp : ∀ c ∈ redone, (Stamp.ofMicros c.clock).Sharp := by
    unfold Stamp.Sharp
    decide +kernel
  have hread : ((Stores.empty .redis).after redone).queues.records.Readable :=
    Keyed.readable_of_forall (by decide +kernel)
  have htracks (id : String) :
      Backend.redis.Tracks (some "images") ((Stores.empty .redis).creations id redone []) := by
    by_cases hcats : id = "cats"
    · subst hcats
      unfold Backend.Tracks
      decide +kernel
    by_cases hdogs : id = "dogs"
    · subst hdogs
      unfold Backend.Tracks
      decide +kernel
    · rw [Stores.creations_of_ne (by simp [redone, StoreOp.queue?, Ne.symm hcats, Ne.symm hdogs])]
      exact fun _ h => absurd h List.not_mem_nil
  exact ⟨hclock, hsharp, hread, htracks, queues_listed_exactly hclock (fun _ => hsharp) 3 (some "images")
    (by decide) (fun hb => Backend.noConfusion hb) (fun _ => hread) htracks⟩

end Runbook

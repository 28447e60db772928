import Runbook.Proofs.Polls
import Runbook.Proofs.Retries

/-!
# `Proofs.ChildFates` — a job learns what became of a child that it waits for

A job that dispatches a child triggers it, notes it in its own record, and looks at the record of the child until
the child has ended. Meanwhile others operate on the stores as they like, the worker of the child first of all.
Of all looks only the last one can have shown the end of the child; the call reports what it has shown, and since
a job that has ended is frozen, this is how the child has ended for good.

## Contents
- **Others.** `World.Touched`, others that operate on the stores; `Program.Among.keeps`, `Among.lasts` and their
  like for what a run amid others keeps.
- **Children.** `StoreOp.SparesChildren` and `Stores.Lists`; `Stores.Keeps.addInternalJob`, how a child is noted.
- **Triggers.** A trigger notes no child, and gives the id of its job.
- **Looks.** `Call.ended?`, an end that is seen; `JobContext.awaitChild_heeds`, the wait up to the first of them.
- **The result.** `ChildCall` with `Reports` and `Ends`; `Program.Among.frozen`, and `child_fate_reported`.
-/

namespace Runbook

/-! ## Others -/

/-- **Others have operated on the stores**, with operations of some kind, and in time for stamps to be made. -/
def World.Touched (Op : StoreOp → Prop) (w u : World) : Prop :=
  ∃ cs : List TimedOp, (∀ c ∈ cs, Op c.op ∧ c.clock < Stamp.lastMicro) ∧ u.stores = w.stores.after cs

section

variable {α β : Type} {Op : StoreOp → Prop} {C : Call → Prop} {I : World → Prop} {J : Stores → Prop} {w u w' : World}
  {p : Program α} {ms : List Moment} {a : α}

theorem World.Touched.refl (w : World) : World.Touched Op w w := ⟨[], nofun, rfl⟩

theorem World.Touched.trans (h : World.Touched Op w u) (h' : World.Touched Op u w') : World.Touched Op w w' := by
  obtain ⟨cs, hcs, hu⟩ := h
  obtain ⟨ds, hds, hw'⟩ := h'
  exact ⟨cs ++ ds, List.forall_mem_append.mpr ⟨hcs, hds⟩, by rw [hw', hu, Stores.after_append]⟩

/-- What operations keep, others keep. -/
theorem World.Touched.keeps (h : World.Touched Op w u) (hw : J w.stores)
    (hkeep : ∀ {s op t}, J s → Op op → t < Stamp.lastMicro → J (s.perform (.ofMicros t) op).2) : J u.stores := by
  obtain ⟨cs, hcs, hstores⟩ := h
  rw [hstores]
  clear hstores
  generalize w.stores = s at hw ⊢
  induction cs generalizing s with
  | nil => exact hw
  | cons c cs ih =>
    obtain ⟨hop, htime⟩ := hcs c List.mem_cons_self
    exact ih (fun d hd => hcs d (.tail _ hd)) _ (hkeep hw hop htime)

namespace Program.Among

variable {Others : World → World → Prop}

/-- One program after the other. -/
theorem of_bind {f : α → Program β} {v : β} (hothers : ∀ w, Others w w)
    (h : Program.Among Others (p.bind f) w ms v w') :
    ∃ a u before after, ms = before ++ after ∧ Program.Among Others p w before a u
      ∧ Program.Among Others (f a) u after v w' := by
  induction p generalizing w ms with
  | done a => exact ⟨a, w, [], ms, rfl, .done (hothers w), h⟩
  | ask c next ih =>
    cases h with
    | ask others first timely rest =>
      obtain ⟨a, u, before, after, rfl, hbefore, hafter⟩ := ih _ rest
      exact ⟨a, u, _, after, rfl, .ask others first timely hbefore, hafter⟩

/-- Others may have acted before. -/
theorem after (hbefore : Others w u) (htrans : ∀ {w u v}, Others w u → Others u v → Others w v)
    (h : Program.Among Others p u ms a w') : Program.Among Others p w ms a w' := by
  cases h with
  | done others => exact .done (htrans hbefore others)
  | ask others first timely rest => exact .ask (htrans hbefore others) first timely rest

theorem bind {f : α → Program β} {v : β} {before after : List Moment}
    (htrans : ∀ {w u v}, Others w u → Others u v → Others w v) (h : Program.Among Others p w before a u)
    (hf : Program.Among Others (f a) u after v w') : Program.Among Others (p.bind f) w (before ++ after) v w' := by
  induction h with
  | done others => exact Among.after others htrans hf
  | ask others first timely _ ih => exact .ask others first timely (ih hf)

/-- Others may go on when the program has come to its end. -/
theorem extend (h : Program.Among Others p w ms a u) (hthen : Others u w')
    (htrans : ∀ {w u v}, Others w u → Others u v → Others w v) : Program.Among Others p w ms a w' := by
  induction h with
  | done others => exact .done (htrans others hthen)
  | ask others first timely _ ih => exact .ask others first timely (ih hthen)

/-- **What others keep, and every deed of a program does, a run keeps.** -/
theorem keeps (h : Program.Among Others p w ms a w') (hp : p.Makes C) (hw : I w)
    (hothers : ∀ {w u}, I w → Others w u → I u)
    (hdeed : ∀ {u d u'}, I u → C d.call → u.Answers d u' → u'.clock < Stamp.lastMicro → I u') : I w' := by
  induction h with
  | done others => exact hothers hw others
  | ask others first timely _ ih => exact ih (hp.2 _) (hdeed (hothers hw others) hp.1 first timely)

/-- All calls are of the kind that the program makes. -/
theorem calls (h : Program.Among Others p w ms a w') (hp : p.Makes C) : ∀ m ∈ ms, C m.deed.call := by
  induction h with
  | done => simp
  | ask _ _ _ _ ih => exact List.forall_mem_cons.mpr ⟨hp.1, ih (hp.2 _)⟩

/-- Every deed is one that its world goes along with. -/
theorem answers (h : Program.Among Others p w ms a w') : ∀ m ∈ ms, ∃ u, m.world.Answers m.deed u := by
  induction h with
  | done => simp
  | ask _ first _ _ ih => exact List.forall_mem_cons.mpr ⟨⟨_, first⟩, ih⟩

/-- A program that comes to its end comes to one of its ends. -/
theorem ends {E : α → Prop} (h : Program.Among Others p w ms a w') (hp : p.Ends E) : E a := by
  induction h with
  | done => exact hp
  | ask _ _ _ _ ih => exact ih (hp _)

/-- **What nobody destroys** holds at all moments from the first one on at which it holds. -/
theorem lasts (h : Program.Among Others p w ms a w') (hothers : ∀ {w u}, I w → Others w u → I u)
    (hdeed : ∀ {u d u'}, I u → u.Answers d u' → u'.clock < Stamp.lastMicro → I u') :
    (I w → I w' ∧ ∀ m ∈ ms, I m.world) ∧ ∀ m ∈ ms, I m.world → I w' := by
  induction h with
  | done others => exact ⟨fun hw => ⟨hothers hw others, by simp⟩, by simp⟩
  | @ask _ _ _ _ _ _ _ w u _ _ _ others first timely _ ih =>
    have hthen (hu : I u) := ih.1 (hdeed hu first timely)
    refine ⟨fun hw => ?_, List.forall_mem_cons.mpr ⟨fun hu => (hthen hu).1, ih.2⟩⟩
    have hu := hothers hw others
    exact ⟨(hthen hu).1, List.forall_mem_cons.mpr ⟨hu, (hthen hu).2⟩⟩

end Program.Among

/-- **What operations keep, and what hangs on the jobs alone, every deed keeps** whose operations are of the kind. -/
theorem World.Answers.keeps {d : Deed} (h : w.Answers d w') (hw : J w.stores) (htime : w'.clock < Stamp.lastMicro)
    (hjobs : ∀ {s s' : Stores}, J s → s'.jobs = s.jobs → s'.isOpen = s.isOpen → J s')
    (hkeep : ∀ op t, d.call = .store op → t < Stamp.lastMicro → J (w.stores.perform (.ofMicros t) op).2) :
    J w'.stores := by
  obtain ⟨step, c, answer, start, stop⟩ := d
  cases c with
  | store op =>
    rw [h.store.2]
    exact hkeep op w'.clock rfl htime
  | _ =>
    obtain ⟨hsame, hopen⟩ := h.jobs_eq (.inl rfl)
    exact hjobs hw hsame hopen

/-- **What all operations keep** lasts while others operate on the stores. -/
theorem Program.Among.lasts_touched (h : Program.Among (World.Touched Op) p w ms a w')
    (hjobs : ∀ {s s' : Stores}, J s → s'.jobs = s.jobs → s'.isOpen = s.isOpen → J s')
    (hkeep : ∀ {s op t}, J s → t < Stamp.lastMicro → J (s.perform (.ofMicros t) op).2) :
    (J w.stores → J w'.stores ∧ ∀ m ∈ ms, J m.world.stores) ∧ ∀ m ∈ ms, J m.world.stores → J w'.stores :=
  h.lasts (I := fun w => J w.stores) (fun hw hothers => hothers.keeps hw fun hs _ htime => hkeep hs htime)
    fun hu hd htime => hd.keeps hu htime hjobs fun _ _ _ htime => hkeep hu htime

end

/-! ## Children -/

/-- **Operations that leave the list of children of a job alone.** -/
structure StoreOp.SparesChildren (id : String) (op : StoreOp) : Prop where
  notes : ∀ child, op ≠ .addInternalJob id child
  updates : ∀ updates ∈ op.updates? id, "internal_jobs" ∉ Keyed.keys updates

/-- The record of a job, with these children. -/
def Stores.Lists (b : Backend) (id : String) (children : List InternalJob) (s : Stores) : Prop :=
  ∃ r, s.Keeps b id (some r) ∧ r.internalJobs = children

section

variable {b : Backend} {id : String} {s s' : Stores} {e r : JobRecord} {updates : Keyed Value} {op : StoreOp}
  {t : Clock} {now : Stamp} {children : List InternalJob}

theorem JobRecord.settle_internalJobs (r : JobRecord) (now : Stamp) : (r.settle now).internalJobs = r.internalJobs := by
  unfold settle
  split <;> rfl

/-- An update that does not name the children leaves them. -/
theorem JobRecord.internalJobs_of_update (hupdates : "internal_jobs" ∉ Keyed.keys updates)
    (h : update (some e) id updates now = .ok r) : r.internalJobs = e.internalJobs := by
  obtain ⟨o, r₀, hoverlays, hrevise, rfl⟩ := update_eq_ok.mp h
  rw [Option.getD_some] at hoverlays hrevise
  have hnone : o.internalJobs = none := by
    refine foldlM_keeps (I := fun acc : Overlays => acc.internalJobs = none) ?_ rfl hoverlays
    rintro acc ⟨key, v⟩ hmem acc' hacc hround
    dsimp only at hround
    have hkey : key ≠ "internal_jobs" := fun heq => hupdates (heq ▸ List.mem_map_of_mem hmem)
    rw [if_neg hkey] at hround
    split at hround
    · obtain ⟨m, -, hacc'⟩ := Fault.bind_eq_ok.mp hround
      exact Except.ok.inj hacc' ▸ hacc
    · split at hround
      · exact Except.ok.inj hround ▸ hacc
      · split at hround
        · obtain ⟨m, -, hacc'⟩ := Fault.bind_eq_ok.mp hround
          exact Except.ok.inj hacc' ▸ hacc
        · exact Except.ok.inj hround ▸ hacc
  obtain ⟨_, _, _, _, internalJobs, _, _, -, -, -, -, hnew, -, -, rfl⟩ := revise_eq_ok.mp hrevise
  rw [newInternalJobs, hnone, Checked.ok.injEq] at hnew
  rw [hnew]
  exact settle_internalJobs ..

namespace Stores.Keeps

/-- **A child is noted** in the record of a job that exists. -/
theorem addInternalJob (h : s.Keeps b id (some e)) (htime : t < Stamp.lastMicro) (child : InternalJob) :
    ∃ s', s.perform (.ofMicros t) (.addInternalJob id child) = (.ok .nothing, s')
      ∧ s'.Keeps b id (some (b.keepsJob (e.addInternal child (.ofMicros t)))) := by
  have hfiled : e.Filed b id := h.filed e rfl
  obtain ⟨held, hheld⟩ : ∃ held, hold s.jobs.backend (e.addInternal child (.ofMicros t)) = .ok held := by
    rw [h.backend]
    by_cases hb : b = .memory
    · subst hb
      exact ⟨_, rfl⟩
    · obtain ⟨hinput, houtput, hmetadata⟩ := h.writable hb e rfl
      exact World.hold_eq_ok (JobRecord.writable_iff.mpr ⟨hinput, houtput, hmetadata⟩)
  obtain ⟨jobs, hjobs⟩ : ∃ jobs, s.jobs.keep (e.addInternal child (.ofMicros t)) = .ok jobs := by
    unfold JobStore.keep
    rw [hheld]
    exact ⟨_, rfl⟩
  have hproper : (e.addInternal child (.ofMicros t)).Proper :=
    ⟨hfiled.proper.createdAt, Stamp.proper_ofMicros htime, hfiled.proper.completedAt⟩
  refine ⟨{ s with jobs }, ?_, h.wrote h.isOpen (JobStore.wrote_of_keep hjobs) hfiled.jobId hproper hfiled.timed⟩
  have hadd : s.jobs.addInternal id child (.ofMicros t) = .ok jobs := by
    unfold JobStore.addInternal
    rw [h.get]
    exact hjobs
  rw [Stores.perform, if_pos h.isOpen, performOpen, hadd]
  rfl

end Stores.Keeps

/-- The list hangs on the jobs alone. -/
theorem Stores.Lists.of_jobs_eq (h : s.Lists b id children) (hjobs : s'.jobs = s.jobs)
    (hopen : s'.isOpen = s.isOpen) : s'.Lists b id children := by
  obtain ⟨r, hkeeps, hchildren⟩ := h
  exact ⟨r, hkeeps.of_jobs_eq (hopen.trans hkeeps.isOpen) hjobs, hchildren⟩

/-- **Operations that spare the children of a job** leave the list as it is. -/
theorem Stores.Lists.perform (h : s.Lists b id children) (hop : op.SparesChildren id) (htime : t < Stamp.lastMicro) :
    (s.perform (.ofMicros t) op).2.Lists b id children := by
  obtain ⟨e, hkeeps, rfl⟩ := h
  obtain ⟨found, hkeeps', -⟩ := Keeps.perform hkeeps op htime
  -- what is read of the job afterwards has the same children
  suffices hget : ∃ r, (s.perform (.ofMicros t) op).2.jobs.get id = .ok (some r) ∧ r.internalJobs = e.internalJobs by
    obtain ⟨r, hr, hchildren⟩ := hget
    obtain rfl := Except.ok.inj (hkeeps'.get.symm.trans hr)
    exact ⟨r, hkeeps', hchildren⟩
  have hanswers : s.jobs.Answers (.ofMicros t) op (s.perform (.ofMicros t) op).1
      (s.perform (.ofMicros t) op).2.jobs := s.jobs_answers ⟨t, op⟩
  generalize (s.perform (.ofMicros t) op).2.jobs = jobs at hanswers
  generalize (s.perform (.ofMicros t) op).1 = answer at hanswers
  cases hanswers with
  | none => exact ⟨e, hkeeps.get, rfl⟩
  | @written _ jobId updates existing r _ hnames hread hr hwrote =>
    have hrId : r.jobId = jobId := JobRecord.jobId_of_update hr
    by_cases hid : jobId = id
    · subst hid
      obtain rfl := Except.ok.inj (hread.symm.trans hkeeps.get)
      have hupdates : op.updates? jobId = some updates := by
        rcases hnames with rfl | rfl <;> exact if_pos rfl
      have hproper := JobRecord.proper_of_update (fun r hr => (hkeeps.filed r hr).proper)
        (Stamp.proper_ofMicros htime) hr
      have hsame := JobRecord.internalJobs_of_update (hop.updates updates hupdates) hr
      have hget := hwrote.get_self hproper.1
      rw [hrId] at hget
      exact ⟨_, hget, hsame⟩
    · exact ⟨e, (hwrote.get_of_ne fun heq => hid (heq.trans hrId).symm).trans hkeeps.get, rfl⟩
  | @child jobId child parent _ hread hwrote =>
    obtain ⟨existing, hfound, hfiled⟩ := hkeeps.sound jobId
    obtain rfl := Except.ok.inj (hread.symm.trans hfound)
    have hid : id ≠ jobId := fun heq => hop.notes child (heq ▸ rfl)
    exact ⟨e, (hwrote.get_of_ne fun heq => hid (heq.trans (hfiled parent rfl).jobId)).trans hkeeps.get, rfl⟩

end

/-! ## Triggers -/

/-- Calls that leave all lists of children alone. -/
def Call.SparesChildren (c : Call) : Prop := ∀ op, c = .store op → ∀ id, op.SparesChildren id

theorem Call.sparesChildren_of_aside {c : Call} (h : c.usesStore = false) : c.SparesChildren := by
  rintro op rfl
  exact absurd h (by simp [usesStore])

theorem Call.sparesChildren_getJob (id : String) : Call.SparesChildren (.store (.getJob id)) := by
  rintro _ ⟨⟩ id
  exact ⟨nofun, nofun⟩

theorem Call.sparesChildren_setJob (id : String) {updates : Keyed Value}
    (h : "internal_jobs" ∉ Keyed.keys updates) : Call.SparesChildren (.store (.setJob id updates)) := by
  rintro _ ⟨⟩ id'
  refine ⟨nofun, fun updates' hupdates => ?_⟩
  obtain rfl := Option.some.inj (Option.ite_none_right_eq_some.mp hupdates).2
  exact h

/-- **What an action gives**, if it does not fail. -/
def Action.Gives {α : Type} (a : Action α) (E : α → Prop) : Prop := a.outcome.Ends fun o => ∀ v, o = .ok v → E v

section

variable {α β : Type} {a : Action α} {f : α → Action β} {E : β → Prop}

/-- What follows an action decides what is given. -/
theorem Action.gives_bind (hf : ∀ v, (f v).Gives E) : (a >>= f).Gives E := by
  unfold Action.Gives
  rw [Action.outcome_bind]
  refine Program.ends_bind (Program.ends_true _) fun o _ => ?_
  cases o with
  | ok v => exact hf v
  | error e => exact nofun

namespace Dispatch

variable (settings : DispatchSettings) (worker : String) (input : Value) (jobId : Option String) (awaits : Bool)
  (context : Value)

/-- **A trigger gives the id of its job.** -/
theorem triggerWorker_gives :
    (triggerWorker settings worker input jobId awaits context).Gives fun r => r.id.isSome = true := by
  have hnamed {id : String} (hid : id ≠ "") :
      (triggerWorker settings worker input (some id) awaits context).Gives fun r => r.id.isSome = true := by
    unfold triggerWorker
    rw [nonEmpty?_of_ne hid]
    refine Action.gives_bind fun id => Action.gives_bind fun existing => ?_
    split
    · rintro _ ⟨⟩
      rfl
    · refine Action.gives_bind fun _ => Action.gives_bind fun time => Action.gives_bind fun response => ?_
      split
      · refine Action.gives_bind fun _ => ?_
        rintro _ ⟨⟩
        rfl
      · rintro _ ⟨⟩
        rfl
  rcases triggerWorker_cases settings worker input jobId awaits context with ⟨id, rfl, hid⟩ | hnew
  · exact hnamed hid
  · rw [hnew]
    exact Action.gives_bind fun n => hnamed (newName_ne_empty n)

theorem setJob_sparesChildren (id : String) {updates : Keyed Value}
    (h : "internal_jobs" ∉ Keyed.keys updates) : (Action.setJob id updates).Makes Call.SparesChildren :=
  Action.makes_setJob (Call.sparesChildren_setJob id h)

theorem sendTrigger_sparesChildren (id : String) (message : Value) :
    (sendTrigger settings worker id message).Makes Call.SparesChildren := by
  unfold sendTrigger
  refine Action.makes_bind (Action.makes_lift ?_) fun o => ?_
  · refine Action.makes_bind (makes_exchange (Call.sparesChildren_of_aside rfl)) fun response => ?_
    exact Action.makes_bind (makes_requireSuccess ..) fun _ => Action.makes_pure _
  · split
    · exact Action.makes_pure _
    · exact Action.makes_bind (setJob_sparesChildren id (by simp [Keyed.keys])) fun _ => Action.makes_throw _
    · exact Action.makes_throw _

/-- **A trigger notes no child.** -/
theorem triggerWorker_sparesChildren :
    (triggerWorker settings worker input jobId awaits context).Makes Call.SparesChildren := by
  have hnamed {id : String} (hid : id ≠ "") :
      (triggerWorker settings worker input (some id) awaits context).Makes Call.SparesChildren := by
    unfold triggerWorker
    rw [nonEmpty?_of_ne hid]
    refine Action.makes_pure_bind (Action.makes_bind (Action.makes_getJob (Call.sparesChildren_getJob id))
      fun existing => ?_)
    split
    · exact Action.makes_pure _
    · refine Action.makes_bind (setJob_sparesChildren id (by simp [Keyed.keys])) fun _ => ?_
      refine Action.makes_bind (Action.makes_map _ (Action.makes_call (Call.sparesChildren_of_aside rfl)))
        fun time => ?_
      refine Action.makes_bind (sendTrigger_sparesChildren settings worker id _) fun response => ?_
      split
      · exact Action.makes_bind (setJob_sparesChildren id (by simp [Keyed.keys])) fun _ => Action.makes_pure _
      · exact Action.makes_pure _
  -- a job without an id is given one first
  rcases triggerWorker_cases settings worker input jobId awaits context with ⟨id, rfl, hid⟩ | hnew
  · exact hnamed hid
  · rw [hnew]
    exact Action.makes_bind (Action.makes_call (Call.sparesChildren_of_aside rfl))
      fun n => hnamed (newName_ne_empty n)

end Dispatch

end

/-! ## Looks -/

/-- **An end that is seen**: the record of a job that has ended, when it is read. -/
def Call.ended? (id : String) : (c : Call) → c.Answer → Option JobRecord
  | .store (.getJob jobId), .ok (.job (some r)) => if jobId = id ∧ r.isTerminal = true then some r else none
  | _, _ => none

/-- **What is known of the ends** that were seen so far. -/
def SeesEnds (id : String) (seen : List JobRecord) (c : Call) (answer : c.Answer) (seen' : List JobRecord) : Prop :=
  seen' = seen ++ (c.ended? id answer).toList

/-- The ends of a job that were seen in some moments. -/
def endsSeen (id : String) (ms : List Moment) : List JobRecord :=
  ms.filterMap fun m => m.deed.call.ended? id m.deed.answer

/-- What a record shows to those who look at it. -/
def JobRecord.sight (r : JobRecord) : Observation :=
  { status := some r.status.word, output := r.output, error := ErrorInfo.toValue? r.error }

theorem JobRecord.isDone_sight (r : JobRecord) : r.sight.isDone = r.isTerminal := by
  unfold sight isTerminal
  cases r.status <;> rfl

theorem Follows.endsSeen {id : String} {seen seen' : List JobRecord} {ms : List Moment}
    (h : Follows (SeesEnds id) seen (ms.map Moment.deed) seen') : seen' = seen ++ endsSeen id ms := by
  induction ms generalizing seen with
  | nil => rw [h.eq_of_nil]; exact (List.append_nil _).symm
  | cons m ms ih =>
    obtain ⟨seen₁, hfirst, hrest⟩ := h.of_cons
    rw [ih hrest, hfirst, Runbook.endsSeen, Runbook.endsSeen, List.filterMap_cons, List.append_assoc]
    cases m.deed.call.ended? id m.deed.answer <;> rfl

namespace JobContext

section

variable {id worker : String} {seen : List JobRecord} {poll : ChildPoll} {triggered : DispatchResult}

/-- **A look at a child** sees its end, or nothing that is the end. -/
theorem lookAtChild_heeds :
    (lookAtChild id).Heeds (SeesEnds id) (fun _ _ => True)
      (fun o seen' =>
        (∃ v, o = .ok v ∧ v.isDone = true ∧ ∃ r, seen' = seen ++ [r] ∧ r.isTerminal = true ∧ v = r.sight)
        ∨ (seen' = seen ∧ ∀ v, o = .ok v → v.isDone = false)) seen := by
  unfold lookAtChild Action.getJob
  refine ⟨trivial, fun answer seen' hseen => ?_⟩
  have hnone (h : Call.ended? id (.store (.getJob id)) answer = none) : seen' = seen := by
    rw [hseen, h, Option.toList_none, List.append_nil]
  cases answer with
  | error f => exact .inr ⟨hnone rfl, nofun⟩
  | ok a =>
    cases a with
    | job found =>
      cases found with
      | none =>
        refine .inr ⟨hnone rfl, ?_⟩
        rintro _ ⟨⟩
        rfl
      | some r =>
        cases hended : r.isTerminal with
        | true =>
          refine .inl ⟨r.sight, rfl, (r.isDone_sight).trans hended, r, ?_, hended, rfl⟩
          rw [hseen, Call.ended?, if_pos ⟨rfl, hended⟩, Option.toList_some]
        | false =>
          refine .inr ⟨hnone ?_, ?_⟩
          · rw [Call.ended?, if_neg (by simp [hended])]
          · rintro _ ⟨⟩
            exact (r.isDone_sight).trans hended
    | _ =>
      refine .inr ⟨hnone rfl, ?_⟩
      rintro _ ⟨⟩
      rfl

theorem awaitChild_sparesChildren : (awaitChild worker id triggered poll).Makes Call.SparesChildren := by
  have haside {c : Call} (h : c.usesStore = false) : (Action.call c).Makes Call.SparesChildren :=
    Action.makes_call (Call.sparesChildren_of_aside h)
  refine Action.makes_bind (makes_pollUntilDone ?_ (fun _ => haside rfl) (Call.sparesChildren_of_aside rfl) _)
    fun r => ?_
  · refine Action.makes_bind (Action.makes_getJob (Call.sparesChildren_getJob id)) fun found => ?_
    split <;> exact Action.makes_pure _
  · split
    · exact Action.makes_throw _
    · exact Action.makes_throw _
    · exact Action.makes_pure _

/-- **What comes of the wait for a child**, given the end that was seen. -/
inductive Awaited (worker id : String) (triggered : DispatchResult) (poll : ChildPoll) :
    List JobRecord → Except Fault DispatchResult → Prop
  | completed {r : JobRecord} (h : r.status = .completed) :
      Awaited worker id triggered poll [r] (.ok { triggered with status := some "completed", output := r.output })
  | failed {r : JobRecord} (h : r.status = .failed) :
      Awaited worker id triggered poll [r]
        (.error (.stepFailed (childMessage worker (ErrorInfo.toValue? r.error)) (ErrorInfo.toValue? r.error)))
  | timedOut {attempts : Nat} {last : Option String} :
      Awaited worker id triggered poll []
        (.error (.pollTimeout (.child worker id (.int poll.timeoutMs) attempts last)))
  /-- The numbers of the poll are too large. -/
  | overflown {elapsed : Float} {f : Fault}
      (h : PollBounds.pause? ⟨poll.intervalMs, some poll.timeoutMs, none⟩ elapsed = .error f) :
      Awaited worker id triggered poll [] (.error f)

/-- **The wait for a child** ends with the end that was seen, or with none. -/
theorem awaitChild_heeds :
    (awaitChild worker id triggered poll).Heeds (SeesEnds id) (fun _ _ => True)
      (fun o seen => Awaited worker id triggered poll seen o) [] := by
  have haside {seen seen' : List JobRecord} {c : Call} {answer : c.Answer} (h : c.usesStore = false)
      (hseen : SeesEnds id seen c answer seen') : seen' = seen := by
    have hnone : c.ended? id answer = none := by cases c <;> first | rfl | exact absurd h (by simp [Call.usesStore])
    rw [hseen, hnone, Option.toList_none, List.append_nil]
  unfold awaitChild
  -- as long as no end was seen the list of ends is empty, and the first end that is seen is the one that the
  -- poll ends with
  refine Action.heeds_bind (pollUntilDone_settles (I := fun seen => seen = [])
    (E := fun v seen => ∃ r, seen = [r] ∧ r.isTerminal = true ∧ v = r.sight) (fun _ => trivial) ?_ ?_ ?_ ?_ rfl) ?_ ?_
  · rintro _ now seen' rfl h
    exact haside rfl h
  · rintro v seen now seen' ⟨r, rfl, hended, hv⟩ h
    exact ⟨r, haside rfl h, hended, hv⟩
  · rintro _ rfl
    exact lookAtChild_heeds
  · rintro seconds _ rfl
    exact ⟨trivial, fun answer seen' h => ⟨haside rfl h, rfl⟩⟩
  · intro result seen h
    generalize ho : (Except.ok result : Except Fault PollResult) = o at h
    cases h with
    | @settled v attempts elapsed hdone hv =>
      obtain rfl := Except.ok.inj ho
      obtain ⟨r, rfl, hended, rfl⟩ := hv
      unfold JobRecord.isTerminal JobStatus.isTerminal at hended
      cases hstatus : r.status with
      | completed =>
        simp only [PollResult.settled, JobRecord.sight, hstatus]
        exact .completed hstatus
      | failed =>
        simp only [PollResult.settled, JobRecord.sight, hstatus]
        exact .failed hstatus
      | queued => simp [hstatus] at hended
      | running => simp [hstatus] at hended
    | timedOut h =>
      obtain rfl := Except.ok.inj ho
      subst h
      exact .timedOut
    | failed => exact absurd ho (by simp)
  · intro f seen h
    generalize ho : (Except.error f : Except Fault PollResult) = o at h
    cases h with
    | settled | timedOut => exact absurd ho (by simp)
    | failed h hpause =>
      subst h
      obtain rfl := Except.error.inj ho
      exact .overflown hpause

end

end JobContext

/-! ## The result -/

/-- What is said of a child that has failed: the message of its error, or a text about its worker when there is
    none. -/
def JobRecord.complaint (worker : String) (r : JobRecord) : String :=
  ((r.error.map ErrorInfo.message).filter (· ≠ "")).getD ("Child worker " ++ worker ++ " failed")

theorem JobContext.childMessage_eq (worker : String) (r : JobRecord) :
    childMessage worker (ErrorInfo.toValue? r.error) = r.complaint worker := by
  unfold childMessage JobRecord.complaint Dispatch.givenText?
  cases r.error with
  | none => rfl
  | some e =>
    show (if Value.truthy (.text e.message) then some (Value.display (.text e.message)) else none).getD _ = _
    by_cases hmessage : e.message = ""
    · simp [Value.truthy, hmessage, Option.filter_some]
    · simp [Value.truthy, hmessage, Value.display, Option.filter_some]

/-- A poll fails only when its numbers are too large. -/
theorem PollBounds.pause?_eq_error {b : PollBounds} {elapsed : Float} {f : Fault} (h : b.pause? elapsed = .error f) :
    f = .numberTooLarge ∨ f = .quotientTooLarge := by
  have hinterval {g : Fault} (h : some <$> b.interval = .error g) : g = .numberTooLarge ∨ g = .quotientTooLarge := by
    unfold interval at h
    split at h
    · exact .inr (Except.error.inj h).symm
    · exact absurd h (by simp)
  cases hleft : b.remaining? elapsed with
  | error g =>
    rw [pause?, hleft] at h
    obtain rfl : g = f := Except.error.inj h
    unfold remaining? at hleft
    split at hleft
    · exact absurd hleft (by simp)
    · split at hleft
      · exact .inl (Except.error.inj hleft).symm
      · exact absurd hleft (by simp)
  | ok left =>
    cases left with
    | none => exact hinterval (pause?_unbounded hleft ▸ h)
    | some left =>
      rw [pause?_bounded hleft] at h
      split at h
      · exact absurd h (by simp)
      · split at h
        · exact absurd h (by simp)
        · exact hinterval h

/-- A call that dispatches a child and waits for it. -/
structure ChildCall where
  context : JobContext
  worker : String
  input : Value
  jobId : Option String
  poll : JobContext.ChildPoll

namespace ChildCall

variable (k : ChildCall)

/-- What is done in the call. -/
def program : Program (Except Fault DispatchResult) :=
  (k.context.dispatchWorker k.worker k.input k.jobId true k.poll).outcome

/-- The trigger that the call begins with. -/
def trigger : Program (Except Fault DispatchResult) :=
  (Dispatch.triggerWorker k.context.settings k.worker k.input k.jobId false
    (.object (if k.context.requestId.truthy then [("requestId", k.context.requestId)] else []))).outcome

/-- The bounds of its poll. -/
def bounds : PollBounds := ⟨k.poll.intervalMs, some k.poll.timeoutMs, none⟩

/-- What is done once the child is triggered: it is noted, and then waited for. -/
def afterTrigger (triggered : DispatchResult) (id : String) : Program (Except Fault DispatchResult) :=
  .ask (.store (.addInternalJob k.context.jobId ⟨id, k.worker⟩)) fun
    | .ok _ => (JobContext.awaitChild k.worker id triggered k.poll).outcome
    | .error f => .done (.error f)

/-- What is done after the trigger, if anything. -/
def andThen : Except Fault DispatchResult → Program (Except Fault DispatchResult)
  | .ok triggered => k.afterTrigger triggered (triggered.id.getD "")
  | .error f => .done (.error f)

theorem program_eq : k.program = k.trigger.bind k.andThen := by
  unfold program JobContext.dispatchWorker
  dsimp only
  rw [Action.outcome_bind]
  refine congrArg (Program.bind _) (funext fun o => ?_)
  cases o with
  | error f => rfl
  | ok triggered => exact congrArg (Program.ask _) (funext fun answer => by cases answer <;> rfl)

/-- **What the call reports** of its child, given the moments after the child was noted: its output if it was
    seen to be completed, its error if it was seen to have failed, and otherwise that there was no more time,
    unless the numbers of the poll are too large. -/
structure Reports (id : String) (triggered : DispatchResult) (looks : List Moment) (o : Except Fault DispatchResult) :
    Prop where
  returns : ∀ result, o = .ok result ↔ ∃ r ∈ endsSeen id looks, r.status = .completed
    ∧ result = { triggered with status := some "completed", output := r.output }
  fails : ∀ message details, o = .error (.stepFailed message details) ↔ ∃ r ∈ endsSeen id looks, r.status = .failed
    ∧ message = r.complaint k.worker ∧ details = ErrorInfo.toValue? r.error
  timesOut : k.bounds.Fits → ((∃ attempts last,
    o = .error (.pollTimeout (.child k.worker id (.int k.poll.timeoutMs) attempts last))) ↔ endsSeen id looks = [])

/-- **How the call ends.** -/
inductive Ends (b : Backend) (Op : StoreOp → Prop) (parent : JobRecord) (w : World) :
    List Moment → Except Fault DispatchResult → World → Prop
  /-- The trigger fails: nothing is noted, and the call fails in the same way. -/
  | refused {ms : List Moment} {f : Fault} {w' : World}
      (htrigger : k.trigger.Among (World.Touched Op) w ms (.error f) w')
      (hcalls : ∀ m ∈ ms, m.deed.call.SparesChildren)
      (hlist : (∀ op, Op op → op.SparesChildren k.context.jobId) →
        w'.stores.Lists b k.context.jobId parent.internalJobs) : Ends b Op parent w ms (.error f) w'
  /-- The child is triggered, noted once, and waited for. -/
  | awaited {before looks : List Moment} {m : Moment} {triggered : DispatchResult} {id : String} {u v w' : World}
      {e : JobRecord} {now : Stamp} {o : Except Fault DispatchResult} (hid : triggered.id = some id)
      (htrigger : k.trigger.Among (World.Touched Op) w before (.ok triggered) u)
      (hcall : m.deed.call = .store (.addInternalJob k.context.jobId ⟨id, k.worker⟩))
      (hfound : m.world.stores.Keeps b k.context.jobId (some e)) (hnoted : m.world.Answers m.deed v)
      (hkept : v.stores.Keeps b k.context.jobId (some (b.keepsJob (e.addInternal ⟨id, k.worker⟩ now))))
      (hcalls : ∀ m ∈ before ++ looks, m.deed.call.SparesChildren)
      (hlist : (∀ op, Op op → op.SparesChildren k.context.jobId) →
        w'.stores.Lists b k.context.jobId (parent.internalJobs ++ [⟨id, k.worker⟩]))
      (hreports : k.Reports id triggered looks o)
      (hfrozen : ∀ r ∈ endsSeen id looks, ∃ r', w'.stores.jobs.get id = .ok (some r') ∧ r.SameOutcome r') :
      Ends b Op parent w (before ++ m :: looks) o w'

end ChildCall

section

variable {b : Backend} {Op : StoreOp → Prop} {k : ChildCall} {parent : JobRecord} {id : String} {w w' : World}
  {ms : List Moment} {o : Except Fault DispatchResult} {triggered : DispatchResult}

open JobContext in
/-- What the wait for a child comes to is what the call reports. -/
theorem ChildCall.reports_of_awaited (h : Awaited k.worker id triggered k.poll (endsSeen id ms) o) :
    k.Reports id triggered ms o := by
  generalize hseen : endsSeen id ms = seen at h
  constructor
  · intro result
    rw [hseen]
    cases h with
    | completed h => simp [h, eq_comm]
    | failed h => simp [h]
    | timedOut => simp
    | overflown => simp
  · intro message details
    rw [hseen]
    cases h with
    | completed h => simp [h]
    | @failed r h => simp [h, childMessage_eq, eq_comm]
    | timedOut => simp
    | overflown hpause => rcases PollBounds.pause?_eq_error hpause with rfl | rfl <;> simp
  · intro hfits
    rw [hseen]
    cases h with
    | completed => simp
    | failed => simp
    | timedOut => simp
    | @overflown elapsed f hpause =>
      obtain ⟨pause, hok⟩ := hfits.pause elapsed
      exact absurd (hok.symm.trans hpause) nofun

/-- **The children that are listed** stay while only calls are made, and operations are carried out, that leave all
    lists of children alone. -/
theorem Program.Among.lists {α : Type} {p : Program α} {a : α} {children : List InternalJob}
    (h : Program.Among (World.Touched Op) p w ms a w') (hp : p.Makes Call.SparesChildren)
    (hw : w.stores.Lists b id children) (hop : ∀ op, Op op → op.SparesChildren id) :
    w'.stores.Lists b id children := by
  refine h.keeps (I := fun w => w.stores.Lists b id children) hp hw ?_ ?_
  · intro w u hw hothers
    exact hothers.keeps hw fun hs h htime => hs.perform (hop _ h) htime
  · intro u d u' hu hd hanswers htime
    exact hanswers.keeps hu htime (fun hs hjobs hopen => hs.of_jobs_eq hjobs hopen) fun op t hcall htime =>
      hu.perform (hd op hcall id) htime

/-- An operation leaves a record of a job that has one. -/
theorem Stores.Keeps.perform_some {s : Stores} {e : JobRecord} {op : StoreOp} {t : Clock}
    (h : s.Keeps b id (some e)) (htime : t < Stamp.lastMicro) :
    ∃ r, (s.perform (.ofMicros t) op).2.Keeps b id (some r) := by
  obtain ⟨found, hkeeps, hmakes⟩ := h.perform op htime
  cases hmakes with
  | same => exact ⟨_, hkeeps⟩
  | updated => exact ⟨_, hkeeps⟩
  | noted => exact ⟨_, hkeeps⟩

/-- An end that is seen is read from the stores. -/
theorem World.Answers.read_of_ended {d : Deed} {r : JobRecord} (h : w.Answers d w')
    (hseen : d.call.ended? id d.answer = some r) :
    w.stores.jobs.get id = .ok (some r) ∧ r.isTerminal = true := by
  obtain ⟨step, c, answer, start, stop⟩ := d
  dsimp only at hseen
  unfold Call.ended? at hseen
  split at hseen
  · next jobId r' =>
    obtain ⟨⟨rfl, hended⟩, hr⟩ := Option.ite_none_right_eq_some.mp hseen
    obtain rfl := Option.some.inj hr
    obtain ⟨hanswer, -⟩ := h.store
    rw [Stores.perform_getJob] at hanswer
    dsimp only at hanswer
    split at hanswer
    · cases hget : w.stores.jobs.get jobId with
      | error f =>
        rw [hget] at hanswer
        exact absurd hanswer nofun
      | ok found =>
        rw [hget] at hanswer
        obtain rfl := StoreAnswer.job.inj (Except.ok.inj hanswer)
        exact ⟨rfl, hended⟩
    · exact absurd hanswer nofun
  · exact absurd hseen nofun

/-- **An end that was seen is the end for good.** -/
theorem Program.Among.frozen {α : Type} {p : Program α} {a : α} (h : Program.Among (World.Touched Op) p w ms a w')
    (hw : w.stores.jobs.Sound) : ∀ r ∈ endsSeen id ms,
      ∃ r', w'.stores.jobs.get id = .ok (some r') ∧ r.SameOutcome r' := by
  intro r hr
  obtain ⟨m, hm, hseen⟩ := List.mem_filterMap.mp hr
  have hsound : m.world.stores.jobs.Sound := by
    refine ((h.lasts_touched (J := fun s => s.jobs.Sound) ?_ ?_).1 hw).2 m hm
    · exact fun hs hjobs _ => hjobs ▸ hs
    · intro s op t hs htime
      have htimes : ∀ c ∈ [(⟨t, op⟩ : TimedOp)], c.clock < Stamp.lastMicro := by simpa using htime
      exact (Stores.sound_after hs htimes).1
  -- the record was read when the end was seen
  obtain ⟨u, hanswers⟩ := h.answers m hm
  obtain ⟨hread, hended⟩ := hanswers.read_of_ended hseen
  have hlasts := (h.lasts_touched
    (J := fun s => s.jobs.Sound ∧ ∃ r', s.jobs.get id = .ok (some r') ∧ r.SameOutcome r') ?_ ?_).2 m hm
  · exact (hlasts ⟨hsound, r, hread, .refl r⟩).2
  · exact fun hs hjobs _ => hjobs ▸ hs
  · rintro s op t ⟨hs, r', hr', hsame⟩ htime
    have hclock : ∀ c ∈ [(⟨t, op⟩ : TimedOp)], c.clock < Stamp.lastMicro := by simpa using htime
    have hended' : r'.isTerminal = true := by
      rw [JobRecord.isTerminal, hsame.status]
      exact hended
    obtain ⟨r'', hr'', hsame', -⟩ := Stores.ended_after hs hclock hr' hended'
    exact ⟨(Stores.sound_after hs hclock).1, r'', hr'', hsame.trans hsame'⟩

/-- **An awaited child is reported as it ended.** Whatever others do to the stores meanwhile: when the trigger fails,
    no child is noted and the call fails in the same way; otherwise the child is noted once in the record of the
    job, which is there, and the call returns the output of the child if and only if it was seen to be completed,
    fails with the error of the child if and only if it was seen to have failed, and runs out of time otherwise,
    unless the numbers of its poll are too large for doubles. The end that was seen is the end of the child for
    good. -/
theorem child_fate_reported (hparent : w.stores.Keeps b k.context.jobId (some parent))
    (h : k.program.Among (World.Touched Op) w ms o w') : k.Ends b Op parent w ms o w' := by
  have htriggers : k.trigger.Makes Call.SparesChildren := Dispatch.triggerWorker_sparesChildren ..
  have hlist : w.stores.Lists b k.context.jobId parent.internalJobs := ⟨parent, hparent, rfl⟩
  have hsome {s s' : Stores} (h : ∃ r, s.Keeps b k.context.jobId (some r)) (hjobs : s'.jobs = s.jobs)
      (hopen : s'.isOpen = s.isOpen) : ∃ r, s'.Keeps b k.context.jobId (some r) := by
    obtain ⟨r, hr⟩ := h
    exact ⟨r, hr.of_jobs_eq (hopen.trans hr.isOpen) hjobs⟩
  have hstays {s : Stores} {op : StoreOp} {t : Clock} (h : ∃ r, s.Keeps b k.context.jobId (some r))
      (htime : t < Stamp.lastMicro) : ∃ r, (s.perform (.ofMicros t) op).2.Keeps b k.context.jobId (some r) :=
    h.choose_spec.perform_some htime
  rw [ChildCall.program_eq] at h
  obtain ⟨o₁, u, before, after, rfl, htrigger, hafter⟩ := Program.Among.of_bind World.Touched.refl h
  cases o₁ with
  | error f =>
    cases hafter with
    | done others =>
      rw [List.append_nil]
      have htrigger' := htrigger.extend others World.Touched.trans
      exact .refused htrigger' (htrigger'.calls htriggers) (htrigger'.lists htriggers hlist)
  | ok triggered =>
    obtain ⟨id, hid⟩ := Option.isSome_iff_exists.mp
      (htrigger.ends (Dispatch.triggerWorker_gives ..) triggered rfl)
    have hafter : (k.afterTrigger triggered (triggered.id.getD "")).Among (World.Touched Op) u after o w' := hafter
    rw [hid, Option.getD_some] at hafter
    obtain ⟨e₁, he₁⟩ := ((htrigger.lasts_touched hsome hstays).1 ⟨parent, hparent⟩).1
    cases hafter with
    | @ask _ _ answer step start stop _ _ v v₁ _ looks others first timely rest =>
      obtain ⟨e, he⟩ := others.keeps (J := fun s => ∃ r, s.Keeps b k.context.jobId (some r)) ⟨e₁, he₁⟩
        fun hs _ htime => hstays hs htime
      -- the record of the job is there, so the child is noted
      obtain ⟨s', hperform, hkept⟩ := he.addInternalJob timely ⟨id, k.worker⟩
      have hperform : v.stores.perform v₁.stamp (.addInternalJob k.context.jobId ⟨id, k.worker⟩)
          = (.ok .nothing, s') := hperform
      obtain ⟨hanswer, hstores⟩ := first.store
      rw [hperform] at hanswer hstores
      obtain rfl : answer = .ok .nothing := hanswer
      obtain rfl : v₁.stores = s' := hstores
      have hawait : (JobContext.awaitChild k.worker id triggered k.poll).outcome.Among (World.Touched Op) v₁
          looks o w' := rest
      have hawaits : (JobContext.awaitChild k.worker id triggered k.poll).Makes Call.SparesChildren :=
        JobContext.awaitChild_sparesChildren
      -- what is seen is not linked to the world
      have hlink : (fun (_ : List JobRecord) (_ : World) => True) [] v₁ := trivial
      obtain ⟨seen, hawaited, -, hfollows, -⟩ := hawait.heeds JobContext.awaitChild_heeds hlink
        (fun _ _ => trivial) fun _ _ _ _ => ⟨_, rfl, trivial⟩
      obtain rfl : seen = endsSeen id looks := hfollows.endsSeen.trans (List.nil_append _)
      refine .awaited hid htrigger rfl he first hkept ?_ ?_ (ChildCall.reports_of_awaited hawaited)
        (hawait.frozen hkept.sound)
      · exact List.forall_mem_append.mpr ⟨htrigger.calls htriggers, hawait.calls hawaits⟩
      · intro hop
        obtain ⟨e', he', hchildren⟩ := others.keeps (htrigger.lists htriggers hlist hop)
          fun hs h htime => hs.perform (hop _ h) htime
        obtain rfl := Option.some.inj (Except.ok.inj (he.get.symm.trans he'.get))
        exact hawait.lists hawaits ⟨_, hkept, congrArg (· ++ [(⟨id, k.worker⟩ : InternalJob)]) hchildren⟩ hop

end

/-! ### A thumbnail for an album -/

/-- The operation that begins an album. -/
def albumBegun : TimedOp := ⟨0, .setJob "album" [("worker_id", .text "publish"), ("status", .text "running")]⟩

/-- An album that is being published, and a remote side that accepts what is sent to it. -/
def albumWorld : World :=
  { stores := (Stores.empty .sqlite).after [albumBegun]
    remote := { replies := [(Remote.shared, [{ response := .ok (.ofJson 202 .null) }])] } }

/-- The album waits for a thumbnail. -/
def albumCall : ChildCall := ⟨⟨"album", "publish", {}, []⟩, "resize", .text "cat.png", some "thumbnail", {}⟩

/-- The operation with which its worker ends the thumbnail. -/
def thumbnailMade : TimedOp :=
  ⟨0, .updateJob "thumbnail" [("status", .text "completed"), ("output", .text "small-cat.png")]⟩

/-- What the trigger comes to, when nobody else is there. -/
def albumTriggered : Except Fault DispatchResult × World := albumCall.trigger.runAlone albumWorld

/-- A world in which an operation was carried out. -/
def World.operated (w : World) (c : TimedOp) : World := { w with stores := w.stores.after [c] }

theorem World.touched_operated (w : World) {c : TimedOp} (h : c.clock < Stamp.lastMicro) :
    World.Touched (· = c.op) w (w.operated c) :=
  ⟨[c], List.forall_mem_singleton.mpr ⟨rfl, h⟩, rfl⟩

/-- The world when the thumbnail was made. -/
def thumbnailWorld : World := albumTriggered.2.operated thumbnailMade

/-- The moments of the call. -/
def albumMoments : List Moment :=
  albumCall.trigger.momentsAlone albumWorld ++ (albumCall.andThen albumTriggered.1).momentsAlone thumbnailWorld

/-- What the call comes to. -/
def albumOutcome : Except Fault DispatchResult × World :=
  (albumCall.andThen albumTriggered.1).runAlone thumbnailWorld

theorem albumCall_among :
    albumCall.program.Among (World.Touched (· = thumbnailMade.op)) albumWorld albumMoments albumOutcome.1
      albumOutcome.2 := by
  have hmade : World.Touched (· = thumbnailMade.op) albumTriggered.2 thumbnailWorld :=
    World.touched_operated _ (by decide +kernel)
  have htrigger : albumCall.trigger.Among (World.Touched (· = thumbnailMade.op)) albumWorld
      (albumCall.trigger.momentsAlone albumWorld) albumTriggered.1 thumbnailWorld :=
    Program.among_momentsAlone World.Touched.refl albumCall.trigger hmade (by decide +kernel)
  have hthen : (albumCall.andThen albumTriggered.1).Among (World.Touched (· = thumbnailMade.op)) thumbnailWorld
      ((albumCall.andThen albumTriggered.1).momentsAlone thumbnailWorld) albumOutcome.1 albumOutcome.2 :=
    Program.among_momentsAlone World.Touched.refl (albumCall.andThen albumTriggered.1)
      (World.Touched.refl albumOutcome.2) (by decide +kernel)
  rw [albumCall.program_eq]
  exact htrigger.bind World.Touched.trans hthen

/-- The thumbnail is made while the album waits for it; its output is returned. -/
theorem album_gets_thumbnail : ∃ parent, albumWorld.stores.Keeps .sqlite "album" (some parent)
    ∧ albumCall.Ends .sqlite (· = thumbnailMade.op) parent albumWorld albumMoments albumOutcome.1 albumOutcome.2
    ∧ albumOutcome.1.toOption.bind (·.output.text?) = some "small-cat.png" := by
  have hbegun : ∀ c ∈ [albumBegun], c.clock < Stamp.lastMicro := List.forall_mem_singleton.mpr (by decide +kernel)
  obtain ⟨found, hkeeps⟩ := (Stores.Keeps.empty .sqlite "album").after hbegun
  have hkeeps : albumWorld.stores.Keeps .sqlite "album" found := hkeeps
  have hfound : (albumWorld.stores.jobs.get "album").toOption.join.isSome = true := by decide +kernel
  rw [hkeeps.get] at hfound
  obtain ⟨parent, rfl⟩ : ∃ parent, found = some parent :=
    Option.isSome_iff_exists.mp (by simpa [Except.toOption] using hfound)
  exact ⟨parent, hkeeps, child_fate_reported hkeeps albumCall_among, by decide +kernel⟩

end Runbook

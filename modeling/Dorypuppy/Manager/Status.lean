import Mathlib.Data.List.Nodup
import Dorypuppy.Manager.Listening
import Dorypuppy.Manager.Running

/-!
# Manager — the exits a `DoryProcess` records

`jniExit` writes `code`, `signal` and `exitedAt` one after another, and for each of them it looks
the `DoryProcess` up in the map again.  `exitValue()` and `exitSignal()` read two of the fields from
another thread, and a `DoryProcess` can have had several children.

`exit_records`: when no pid is reused, what `jniExit` has written to a `DoryProcess` is a list of
records, each with the status and signal of one exit event of one child of it, no child twice, and
the first part of one more while the loop thread is between its writes.  Outside of these moments
the three fields are those of the last record.
-/

namespace Dorypuppy.Manager

open Child (Reached born done)
open Support (Machine History)
open Function (update update_self update_of_ne)

variable {s s' : State} {l : Label} {os : List Event} {h : History Label Event} {p : PuppyId}
  {c : ObjId}

/-! ### The writes of `jniExit` -/

def Event.wrote? (p : PuppyId) : Event → Option (Write × ObjId)
  | .wrote p' w c => if p' = p then some (w, c) else none
  | _ => none

/-- What `jniExit` has written to `p`, and for which child. -/
def written (p : PuppyId) (os : List Event) : List (Write × ObjId) :=
  os.filterMap (Event.wrote? p)

@[simp] theorem written_append (os os' : List Event) :
    written p (os ++ os') = written p os ++ written p os' := List.filterMap_append

theorem written_acts (as : List (Act JniCallback)) : written p (as.map (.act c)) = [] := by
  simp [written, Event.wrote?]

/-- One exit as a `DoryProcess` records it. -/
structure ExitRecord where
  child : ObjId
  code : Int
  signal : Int
  now : Date

def ExitRecord.writes (x : ExitRecord) : List (Write × ObjId) :=
  [(.code x.code, x.child), (.signal x.signal, x.child), (.exitedAt x.now, x.child)]

/-- What has been written of the record of an exit callback. -/
def Frame.half (f : Frame) : List (Write × ObjId) :=
  match f.pc, f.args with
  | .setSignal, .status code _ => [(.code code, f.child)]
  | .setExitedAt, .status code signal => [(.code code, f.child), (.signal signal, f.child)]
  | _, _ => []

/-- The first part of a record of `p`. -/
def State.half (s : State) (p : PuppyId) : List (Write × ObjId) :=
  match s.frame with
  | none => []
  | some f => if (s.objs f.child).any (fun sp => sp.puppy = p) then f.half else []

/-- The three fields of an exit. -/
def State.status (s : State) (p : PuppyId) : Int × Int × Option Date :=
  ((s.puppies p).code, (s.puppies p).signal, (s.puppies p).exitedAt)

/-- What a write makes of the fields. -/
def note (x : Int × Int × Option Date) : Write → Int × Int × Option Date
  | .code code => (code, x.2.1, x.2.2)
  | .signal signal => (x.1, signal, x.2.2)
  | .exitedAt now => (x.1, x.2.1, some now)
  | _ => x

def noted (ws : List (Write × ObjId)) : Int × Int × Option Date :=
  ws.foldl (fun x w => note x w.1) (0, 0, none)

theorem noted_snoc (ws : List (Write × ObjId)) (w : Write × ObjId) :
    noted (ws ++ [w]) = note (noted ws) w.1 := by
  simp [noted]

/-- The fields after whole records are those of the last. -/
theorem noted_records (rs : List ExitRecord) : noted (rs.flatMap ExitRecord.writes) =
    match rs.getLast? with
    | some x => (x.code, x.signal, some x.now)
    | none => (0, 0, none) := by
  induction rs using List.reverseRecOn with
  | nil => rfl
  | append_singleton rs x _ =>
      rw [List.flatMap_append, List.flatMap_singleton, List.getLast?_concat, noted,
        List.foldl_append]
      rfl

/-! ### One step -/

theorem status_write (w : Write) : (((s.puppies p).write w).code, ((s.puppies p).write w).signal,
    ((s.puppies p).write w).exitedAt) = note (s.status p) w := by
  cases w <;> rfl

theorem half_of {f : Frame} {sp : Spawn} (hf : s.frame = some f) (hsp : s.objs f.child = some sp) :
    s.half p = if sp.puppy = p then f.half else [] := by
  simp [State.half, hf, hsp]

theorem Frame.half_nil {f : Frame} (h : f.pc ≠ .setSignal) (h' : f.pc ≠ .setExitedAt) :
    f.half = [] := by
  unfold Frame.half
  split
  · exact absurd ‹_› h
  · exact absurd ‹_› h'
  · rfl

theorem State.half_nil (hf : ∀ f, s.frame = some f → f.half = []) : s.half p = [] := by
  unfold State.half
  split
  · rfl
  · rw [hf _ ‹_›, ite_self]

/-- What a step does to the record of `p`: nothing, or it writes the next field. -/
inductive RecordStep (s s' : State) (p : PuppyId) (os : List Event) : Prop where
  | quiet : written p os = [] → s'.status p = s.status p → s'.half p = s.half p →
      RecordStep s s' p os
  | write {now f w pc sp} : s.frame = some f → f.write? now = some (w, pc) →
      s.objs f.child = some sp → sp.puppy = p → written p os = [(w, f.child)] →
      s'.status p = note (s.status p) w → s.half p = f.half →
      s'.frame = some { f with pc := pc } → s'.half p = { f with pc := pc }.half →
      RecordStep s s' p os

theorem step_record (v : Inv s) (d : Distinct s) (hs : Step s l s' os) :
    RecordStep s s' p os := by
  -- a callback that stays where it is, of an object that stays
  have half (hf : s'.frame = s.frame) : s'.half p = s.half p := by
    cases hframe : s.frame with
    | none => rw [State.half, State.half, hf, hframe]
    | some f =>
        obtain ⟨sp, hsp, -⟩ := v.frames.obj f hframe
        obtain ⟨sp', hsp', hl⟩ := step_later v.objects v.calls hs hsp
        rw [half_of hframe hsp, half_of (hf.trans hframe) hsp', hl.puppy]
  have moved {f : Frame} {pc : JniPc} (hf : s.frame = some f)
      (hf' : s'.frame = some { f with pc := pc }) (h : f.half = [])
      (h' : pc ≠ .setSignal ∧ pc ≠ .setExitedAt) : s'.half p = s.half p := by
    have hs : s.half p = [] := State.half_nil fun f₀ hf₀ => by
      cases hf.symm.trans hf₀
      exact h
    have hs' : s'.half p = [] := State.half_nil fun f₀ hf₀ => by
      cases hf'.symm.trans hf₀
      exact Frame.half_nil h'.1 h'.2
    rw [hs, hs']
  have status {p' : PuppyId} {x : DoryProcess} (ho : s'.puppies = update s.puppies p' x)
      (hx : x.code = (s.puppies p').code ∧ x.signal = (s.puppies p').signal ∧
        x.exitedAt = (s.puppies p').exitedAt) : s'.status p = s.status p := by
    rw [State.status, State.status, ho]
    by_cases hp : p = p'
    · subst hp
      rw [update_self, hx.1, hx.2.1, hx.2.2]
    · rw [update_of_ne hp]
  have after (f : Frame) : f.after ≠ .setSignal ∧ f.after ≠ .setExitedAt := by
    unfold Frame.after
    split <;> decide
  have thrown (f : Frame) : f.thrown ≠ .setSignal ∧ f.thrown ≠ .setExitedAt := by
    unfold Frame.thrown
    split <;> decide
  cases hs with
  | set => exact .quiet rfl (status rfl (DoryProcess.apply_exit _ _)) (half rfl)
  | setTimeout | setPid | setStartedAt =>
      exact .quiet rfl (status rfl ⟨rfl, rfl, rfl⟩) (half rfl)
  | javaPut =>
      refine .quiet ?_ rfl (half rfl)
      split <;> rfl
  | spawn | callback => exact .quiet (written_acts _) rfl (half rfl)
  | callbackInvoke hnone =>
      have hs : s.half p = [] := by rw [State.half, hnone]
      exact .quiet (written_acts _) rfl (hs ▸ State.half_nil fun f hf => by cases hf; rfl)
  | @jniMove now f pc' hf hm =>
      refine .quiet rfl rfl ?_
      generalize hpc : f.pc = pc at hm
      have hhalf : f.half = [] := by
        refine Frame.half_nil ?_ ?_ <;> rw [hpc] <;> cases hm <;> decide
      refine moved hf rfl hhalf ?_
      cases hm with
      | contains =>
          unfold Frame.found
          split <;> decide
      | absent | noListener => exact after f
      | listener => decide
  | @write now f w pc' e hf hw he =>
      obtain ⟨sp, hsp, -⟩ := v.frames.obj f hf
      have hm := v.frames.ofExit f hf (Frame.write_pc hw).1
      have howner := d.owner v hf (by rw [hm]; decide) hsp he
      by_cases hp : sp.puppy = p
      · have hep : e.puppy = p := howner.trans hp
        subst hep
        refine .write hf hw hsp hp (by simp [written, Event.wrote?]) ?_ ?_ rfl ?_
        · rw [State.status]
          dsimp only
          rw [update_self]
          exact status_write w
        · rw [half_of hf hsp, if_pos hp]
        · simp [State.half, hsp, hp]
      · have hep : e.puppy ≠ p := fun h => hp (howner.symm.trans h)
        refine .quiet (by simp [written, Event.wrote?, hep]) ?_ ?_
        · rw [State.status]
          dsimp only
          rw [update_of_ne (Ne.symm hep)]
          rfl
        · rw [half_of hf hsp, if_neg hp]
          simp [State.half, hsp, hp]
  | listener hf hpc =>
      exact .quiet rfl rfl (moved hf rfl (Frame.half_nil (by rw [hpc]; decide)
        (by rw [hpc]; decide)) (by decide))
  | nullPointer hf hpc hnone => exact (d.not_nullPointer v hf hpc hnone).elim
  | remove hf hpc | erase hf hpc =>
      exact .quiet rfl rfl (moved hf rfl (Frame.half_nil (by rw [hpc]; decide)
        (by rw [hpc]; decide)) (by decide))
  | @tail now f sp hf hpc =>
      have hs : s.half p = [] := State.half_nil fun f₀ hf₀ => by
        cases hf.symm.trans hf₀
        exact Frame.half_nil (by rw [hpc]; decide) (by rw [hpc]; decide)
      exact .quiet (written_acts _) rfl (hs ▸ rfl)
  | @listenerReturns f hf hpc =>
      exact .quiet rfl rfl (moved hf rfl (Frame.half_nil (by rw [hpc]; decide)
        (by rw [hpc]; decide)) (after f))
  | @listenerThrows f hf hpc =>
      exact .quiet rfl rfl (moved hf rfl (Frame.half_nil (by rw [hpc]; decide)
        (by rw [hpc]; decide)) (thrown f))
  | _ => exact .quiet rfl rfl (half rfl)

/-! ### In a whole run -/

/-- The exit callback of a child is before its last write, as it was, or the exit event is new. -/
theorem beforeWrite_back (v : Inv s) (hs : Step s l s' os)
    (hx : exiting s' c JniPc.beforeWrite = true) :
    exiting s c JniPc.beforeWrite = true ∨ ∃ sp, s.objs c = some sp ∧ done sp.child = false := by
  obtain ⟨f, hf, rfl, hm, hb⟩ := exiting_iff.mp hx
  have old {f₀ : Frame} (hf₀ : s.frame = some f₀) (hc : f₀.child = f.child)
      (hm₀ : f₀.method = .exit) (hb₀ : f₀.pc.beforeWrite = true) :
      exiting s f.child JniPc.beforeWrite = true := exiting_iff.mpr ⟨f₀, hf₀, hc, hm₀, hb₀⟩
  cases hs with
  | @callbackInvoke c i sp ch as k args pid hnone hsp hst hinv =>
      cases hf
      rw [invoked_eq (v.objects.reached c sp hsp).2 hst, Option.map_eq_some_iff] at hinv
      obtain ⟨⟨k, args⟩, hk, ⟨⟩⟩ := hinv
      cases hm
      exact .inr ⟨sp, hsp, done_raised (v.objects.reached c sp hsp).1 hst hk⟩
  | @jniMove now f₀ pc' hf₀ hmove =>
      cases hf
      refine .inl (old hf₀ rfl hm ?_)
      have hb : pc'.beforeWrite = true := hb
      generalize f₀.pc = pc at hmove
      cases hmove with
      | contains => rfl
      | absent | noListener =>
          unfold Frame.after at hb
          split at hb <;> cases hb
      | listener => cases hb
  | @write now f₀ w pc' e hf₀ hw =>
      cases hf
      refine .inl (old hf₀ rfl hm ?_)
      unfold Frame.write? at hw
      split at hw <;> cases hw <;> simp [JniPc.beforeWrite, *]
  | nullPointer hf₀ | listenerThrows hf₀ =>
      cases hf
      unfold Frame.thrown at hb
      split at hb <;> cases hb
  | listenerReturns hf₀ =>
      cases hf
      unfold Frame.after at hb
      split at hb <;> cases hb
  | listener | remove | erase => cases hf; cases hb
  | tail => cases hf
  | _ => exact .inl (old hf rfl hm hb)

/-- What is known of the records of `p`. -/
structure Records (p : PuppyId) (h : History Label Event) (s : State) (rs : List ExitRecord) :
    Prop where
  parts : written p h.outputs = rs.flatMap ExitRecord.writes ++ s.half p
  fields : s.status p = noted (written p h.outputs)
  child : ∀ x ∈ rs, (∃ sp, s.objs x.child = some sp ∧ sp.puppy = p ∧ done sp.child = true) ∧
    ("exit", .status x.code x.signal) ∈ said x.child h.outputs ∧
    exiting s x.child JniPc.beforeWrite = false
  once : (rs.map ExitRecord.child).Nodup

/-- A record stays. -/
theorem Records.stays {rs : List ExitRecord} (k : Records p h s rs) (v : Inv s)
    (hs : Step s l s' os) {x : ExitRecord} (hx : x ∈ rs) :
    (∃ sp, s'.objs x.child = some sp ∧ sp.puppy = p ∧ done sp.child = true) ∧
      ("exit", .status x.code x.signal) ∈ said x.child (h ++ [(l, os)]).outputs ∧
      exiting s' x.child JniPc.beforeWrite = false := by
  obtain ⟨⟨sp, hsp, hp, hd⟩, hsaid, hnot⟩ := k.child x hx
  obtain ⟨sp', hsp', hl⟩ := step_later v.objects v.calls hs hsp
  refine ⟨⟨sp', hsp', hl.puppy.trans hp, hl.done hd⟩, ?_, ?_⟩
  · rw [History.outputs_append, said_append]
    exact List.mem_append_left _ hsaid
  · by_contra hb
    rcases beforeWrite_back v hs (by simpa using hb) with hb | ⟨sp₁, hsp₁, hd₁⟩
    · rw [hnot] at hb
      cases hb
    · cases hsp.symm.trans hsp₁
      rw [hd] at hd₁
      cases hd₁

theorem step_records {rs : List ExitRecord} (v : Inv s) (d : Distinct s)
    (hcarried : ∀ c, carried s c ⊆ said c h.outputs) (k : Records p h s rs)
    (hs : Step s l s' os) : ∃ rs, Records p (h ++ [(l, os)]) s' rs := by
  have houts : written p (h ++ [(l, os)]).outputs = written p h.outputs ++ written p os := by
    simp
  cases step_record (p := p) v d hs with
  | quiet hw hst hhalf =>
      rw [hw, List.append_nil] at houts
      exact ⟨rs, by rw [houts, k.parts, hhalf], by rw [hst, k.fields, houts],
        fun x hx => k.stays v hs hx, k.once⟩
  | @write now f w pc sp hf hwr hsp hp hw hst hhalf hf' hhalf' =>
      have hm := v.frames.ofExit f hf (Frame.write_pc hwr).1
      have hfields : s'.status p = noted (written p (h ++ [(l, os)]).outputs) := by
        rw [hst, k.fields, houts, hw, noted_snoc]
      -- the record is written field by field
      have goes (hnext : f.half ++ [(w, f.child)] = { f with pc := pc }.half) :
          ∃ rs, Records p (h ++ [(l, os)]) s' rs :=
        ⟨rs, by rw [houts, k.parts, hw, hhalf, hhalf', List.append_assoc, hnext], hfields,
          fun x hx => k.stays v hs hx, k.once⟩
      unfold Frame.write? at hwr
      split at hwr
      · rename_i code signal hpc hargs
        cases hwr
        exact goes (by simp [Frame.half, hpc, hargs])
      · rename_i code signal hpc hargs
        cases hwr
        exact goes (by simp [Frame.half, hpc, hargs])
      · rename_i code signal hpc hargs
        cases hwr
        -- the last field: the record is whole
        have hexiting : exiting s f.child JniPc.beforeWrite = true :=
          exiting_iff.mpr ⟨f, hf, rfl, hm, by rw [hpc]; rfl⟩
        have hcarry : ("exit", JArgs.status code signal) ∈ said f.child h.outputs := by
          refine hcarried f.child ?_
          rw [carried_of hf, if_pos ⟨rfl, by rw [hpc]; rfl⟩, hm, hargs]
          exact .head _
        have hnew : f.child ∉ rs.map ExitRecord.child := by
          intro hmem
          obtain ⟨x, hx, hc⟩ := List.mem_map.mp hmem
          have := (k.child x hx).2.2
          rw [hc, hexiting] at this
          cases this
        refine ⟨rs ++ [⟨f.child, code, signal, now⟩], ?_, hfields, fun x hx => ?_, ?_⟩
        · rw [houts, k.parts, hw, hhalf, hhalf']
          simp [Frame.half, hpc, hargs, ExitRecord.writes]
        · rcases List.mem_append.mp hx with hx | hx
          · exact k.stays v hs hx
          · obtain rfl := List.mem_singleton.mp hx
            obtain ⟨sp₀, hsp₀, -, hd⟩ := v.frames.obj f hf
            cases hsp.symm.trans hsp₀
            obtain ⟨sp', hsp', hl⟩ := step_later v.objects v.calls hs hsp
            refine ⟨⟨sp', hsp', hl.puppy.trans hp, hl.done (hd hm)⟩, ?_, ?_⟩
            · rw [History.outputs_append, said_append]
              exact List.mem_append_left _ hcarry
            · rw [exiting_eq hf' rfl hm]
              rfl
        · rw [List.map_append, List.map_singleton, ← List.concat_eq_append]
          exact List.Nodup.concat hnew k.once
      · cases hwr

/-- **Exits are recorded whole.**  In every run in which no pid is reused, whatever the listeners
do, what `jniExit` has written to a `DoryProcess` is a list of records, and the first part of
another while it is between two writes; each record is the status and signal of the exit event of a
child of this `DoryProcess`, a child has one at most, and except between two writes `exitValue()`,
`exitSignal()` and `exitedAt` are those of the last record. -/
theorem exit_records {puppies : PuppyId → List (Option JString) × StringTable}
    (r : machine.RunWhere (fun s l => pidFresh s l = true) (.init puppies) h s) (p : PuppyId) :
    ∃ rs : List ExitRecord, written p h.outputs = rs.flatMap ExitRecord.writes ++ s.half p ∧
      (∀ x ∈ rs, (∃ sp, s.objs x.child = some sp ∧ sp.puppy = p) ∧
        ("exit", .status x.code x.signal) ∈ said x.child h.outputs) ∧
      (rs.map ExitRecord.child).Nodup ∧
      (s.half p = [] → s.status p =
        match rs.getLast? with
        | some x => (x.code, x.signal, some x.now)
        | none => (0, 0, none)) := by
  have hrun : ∃ rs, Records p h s rs := by
    refine r.inv (fun h s => ∃ rs, Records p h s rs)
      ⟨[], rfl, rfl, fun x hx => (List.not_mem_nil hx).elim, List.nodup_nil⟩ ?_
    rintro h s s' l os r - hs ⟨rs, k⟩
    refine step_records (run_inv r) (run_distinct r) (fun c x hx => ?_) k (step_inv hs).2
    exact (run_listened r c).subset (List.mem_append_right _ hx)
  obtain ⟨rs, k⟩ := hrun
  refine ⟨rs, k.parts, fun x hx => ?_, k.once, fun hhalf => ?_⟩
  · obtain ⟨⟨sp, hsp, hp, -⟩, hsaid, -⟩ := k.child x hx
    exact ⟨⟨sp, hsp, hp⟩, hsaid⟩
  · rw [k.fields, k.parts, hhalf, List.append_nil, noted_records]

/-- Two children of one `DoryProcess` one after another: the first exit is recorded, of the second
the code is. -/
def twoExits : List Label :=
  startsWith (.caller 0) 0 7 ++ [.callback 0 (.stderrCb UV_EOF []), .callback 0 (.exitCb 3 0)] ++
  List.replicate 8 (.jni 0) ++ startsWith (.caller 0) 0 8 ++
  [.callback 1 (.stderrCb UV_EOF []), .callback 1 (.exitCb 0 9), .jni 0, .jni 0]

theorem exit_records_example : ∃ h s, h.inputs = twoExits ∧
    machine.RunWhere (fun s l => pidFresh s l = true) (.init examplePuppies) h s ∧
    written 0 h.outputs = ExitRecord.writes ⟨0, 3, 0, 0⟩ ++ [(.code 0, 1)] ∧
    ∃ rs : List ExitRecord, written 0 h.outputs = rs.flatMap ExitRecord.writes ++ s.half 0 := by
  have r := Machine.execWhere_run (M := machine) (C := fun s l => pidFresh s l)
    (s := .init examplePuppies) twoExits rfl
  obtain ⟨rs, hrs, -⟩ := exit_records r 0
  exact ⟨_, _, rfl, r, rfl, rs, hrs⟩

/-- With a pid reused between two writes, the code goes to one `DoryProcess` and the signal to
another. -/
example : ∃ h s, machine.Run (.init examplePuppies) h s ∧
    written 0 h.outputs = [(.code 0, 0)] ∧ written 1 h.outputs = [(.signal 9, 0)] :=
  ⟨_, _, Machine.exec_run (M := machine) (s := .init examplePuppies)
    (startsWith (.caller 0) 0 7 ++
      [.callback 0 (.stderrCb UV_EOF []), .callback 0 (.exitCb 0 9), .jni 0, .jni 0] ++
      startsWith (.caller 1) 1 7 ++ [.jni 0]) rfl, rfl, rfl⟩

end Dorypuppy.Manager

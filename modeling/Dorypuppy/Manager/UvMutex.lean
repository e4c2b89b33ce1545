import Dorypuppy.Manager.Kill
import Dorypuppy.Manager.Progress
import Dorypuppy.Support.Simulation

/-!
# Manager — the sections of `uvMutex`

The manager puts an entry into the native `processList`, and erases one, in one step.  The code
does either between `uv_mutex_lock` and `uv_mutex_unlock`, and
`processList[pid] = std::make_shared<DoryProcessSpawn>(*process)` is three operations there:
`make_shared` copies the object, `operator[]` puts in a null entry when there is none for the pid,
and the assignment stores the copy.  C++11 leaves open which of the first two comes first.
`kill` reads the map without the mutex.

* `uvMutex_refines`: as long as `kill` does not look for the very pid that a thread is putting an
  entry in for, the sections are one step each: every run with them is a run of the manager, with
  the same outputs.
* `uvMutex_fresh`: when no pid is reused, `kill` never looks for such a pid.
* `uvMutex_rests`: with the sections too what is under way comes to rest, and the mutex is free
  then.
-/

namespace Dorypuppy.Manager

open Child (Reached born)
open Support (Machine History)
open Function (update update_self update_of_ne update_comm update_idem update_eq_self)

/-! ### The places inside -/

/-- Where the thread that holds `uvMutex` is.  `old` is what the map had for the pid before
`operator[]`; no step looks at it. -/
inductive Section where
  | locked (c : ObjId) (pid : Int)
  | copied (pid : Int) (e : NativeEntry)
  | slot (c : ObjId) (pid : Int) (old : Option (Option NativeEntry))
  | both (pid : Int) (e : NativeEntry)
  | erasing
  | done

/-- What it does there. -/
inductive Op where
  | copy | slot | assign | erase | unlock

/-- The manager with `uvMutex`.  The native `processList` of `state` is the map as it is in
memory. -/
structure Guarded where
  state : State
  mutex : Option (Tid × Section)

/-- A step of the manager outside of `uvMutex`, a thread gets it, or the thread that has it goes
on. -/
inductive GuardedLabel where
  | other (l : Label)
  | lock (t : Tid)
  | op (o : Op)

namespace State

/-- `spawn()` returned 0: the object and the pid of the entry that comes next. -/
def putting (s : State) (t : Tid) : Option (ObjId × Int) :=
  match s.calls t with
  | none => none
  | some call =>
      match call.pc with
      | .spawning c =>
          match s.objs c with
          | none => none
          | some sp => if sp.child.pc = .returned 0 then some (c, sp.child.obj.getPid) else none
      | _ => none

/-- The registered function of `exit` is before its `erase`. -/
def erasing (s : State) : Tid → Bool
  | .loop => s.frame.any fun f => f.pc = .erase
  | .caller _ => false

/-- The section a thread enters next. -/
def enters (s : State) (t : Tid) : Option Section :=
  match s.putting t with
  | some (c, pid) => some (.locked c pid)
  | none => if s.erasing t then some .erasing else none

/-- The steps that are made in a section. -/
def viaMutex (s : State) : Label → Bool
  | .step t _ _ => (s.putting t).isSome
  | .jni _ => s.erasing .loop
  | _ => false

/-- `make_shared`, and what of the step of the manager does not touch the map. -/
def copy (s : State) (t : Tid) (c : ObjId) (pid : Int) : Option (State × NativeEntry) :=
  match s.calls t, s.objs c with
  | some call, some sp =>
      some ({ s with
        objs := update s.objs c (some { sp with stage := .native })
        calls := update s.calls t (some { call with pc := .javaPut c pid }) }, ⟨sp.child.obj, c⟩)
  | _, _ => none

/-- `operator[]`. -/
def withSlot (s : State) (pid : Int) : State :=
  match s.nativeList pid with
  | none => { s with nativeList := update s.nativeList pid (some none) }
  | some _ => s

/-- A step inside `uvMutex`, with the place after it. -/
def stepSection (s : State) (t : Tid) (sec : Section) :
    Op → Option (State × Option Section × List Event)
  | .copy =>
      match sec with
      | .locked c pid => (s.copy t c pid).map fun r => (r.1, some (.copied pid r.2), [])
      | .slot c pid _ => (s.copy t c pid).map fun r => (r.1, some (.both pid r.2), [])
      | _ => none
  | .slot =>
      match sec with
      | .locked c pid => some (s.withSlot pid, some (.slot c pid (s.nativeList pid)), [])
      | .copied pid e => some (s.withSlot pid, some (.both pid e), [])
      | _ => none
  | .assign =>
      match sec with
      | .both pid e =>
          some ({ s with nativeList := update s.nativeList pid (some (some e)) }, some .done, [])
      | _ => none
  | .erase =>
      match sec with
      | .erasing =>
          s.frame.map fun f => ({ s with
            nativeList := update s.nativeList f.pid none
            frame := some { f with pc := .tail } }, some .done,
            [.erased f.pid ((s.nativeList f.pid).join.map NativeEntry.child) f.child])
      | _ => none
  | .unlock =>
      match sec with
      | .done => some (s, none, [])
      | _ => none

end State

/-- The thread that makes a step. -/
def Label.runner? : Label → Option Tid
  | .callback _ _ | .jni _ | .listenerReturns | .listenerThrows => some .loop
  | l => l.thread?

namespace Guarded

/-- A thread that is inside `uvMutex` does nothing else. -/
def allows (g : Guarded) (l : Label) : Bool :=
  !g.state.viaMutex l && g.mutex.all fun m => decide (l.runner? ≠ some m.1)

def step (g : Guarded) : GuardedLabel → Option (Guarded × List Event)
  | .other l =>
      if g.allows l then (g.state.step l).map fun r => (⟨r.1, g.mutex⟩, r.2) else none
  | .lock t =>
      if g.state.crashed then none
      else
        match g.mutex with
        | some _ => none
        | none => (g.state.enters t).map fun sec => (⟨g.state, some (t, sec)⟩, [])
  | .op o =>
      if g.state.crashed then none
      else
        match g.mutex with
        | none => none
        | some (t, sec) =>
            (g.state.stepSection t sec o).map fun r => (⟨r.1, r.2.1.map (t, ·)⟩, r.2.2)

end Guarded

def guarded : Machine Guarded GuardedLabel Event := ⟨Guarded.step⟩

/-! ### What one step can do -/

/-- Every step, with the state after it and what it did. -/
inductive GuardedStep (g : Guarded) : GuardedLabel → Guarded → List Event → Prop where
  | other {l s' os} : g.allows l = true → g.state.step l = some (s', os) →
      GuardedStep g (.other l) ⟨s', g.mutex⟩ os
  | lock {t sec} : g.mutex = none → g.state.enters t = some sec →
      GuardedStep g (.lock t) ⟨g.state, some (t, sec)⟩ []
  | copyFirst {t c pid s' e} : g.mutex = some (t, .locked c pid) →
      g.state.copy t c pid = some (s', e) →
      GuardedStep g (.op .copy) ⟨s', some (t, .copied pid e)⟩ []
  | copyLast {t c pid old s' e} : g.mutex = some (t, .slot c pid old) →
      g.state.copy t c pid = some (s', e) →
      GuardedStep g (.op .copy) ⟨s', some (t, .both pid e)⟩ []
  | slotFirst {t c pid} : g.mutex = some (t, .locked c pid) →
      GuardedStep g (.op .slot)
        ⟨g.state.withSlot pid, some (t, .slot c pid (g.state.nativeList pid))⟩ []
  | slotLast {t pid e} : g.mutex = some (t, .copied pid e) →
      GuardedStep g (.op .slot) ⟨g.state.withSlot pid, some (t, .both pid e)⟩ []
  | assign {t pid e} : g.mutex = some (t, .both pid e) →
      GuardedStep g (.op .assign) ⟨{ g.state with
        nativeList := update g.state.nativeList pid (some (some e)) }, some (t, .done)⟩ []
  | erase {t f} : g.mutex = some (t, .erasing) → g.state.frame = some f →
      GuardedStep g (.op .erase) ⟨{ g.state with
        nativeList := update g.state.nativeList f.pid none
        frame := some { f with pc := .tail } }, some (t, .done)⟩
        [.erased f.pid ((g.state.nativeList f.pid).join.map NativeEntry.child) f.child]
  | unlock {t} : g.mutex = some (t, .done) → GuardedStep g (.op .unlock) ⟨g.state, none⟩ []

variable {s s' : State} {l : Label} {os : List Event} {t : Tid} {q : Int}
  {x : Option (Option NativeEntry)} {g g' : Guarded} {m : GuardedLabel}

/-- A step is one of `GuardedStep`'s, and comes in a state that has not crashed. -/
theorem guarded_inv (h : g.step m = some (g', os)) :
    g.state.crashed = false ∧ GuardedStep g m g' os := by
  cases m with
  | other l =>
      simp only [Guarded.step] at h
      split at h
      · rename_i hallows
        obtain ⟨⟨s', os⟩, hs, he⟩ := Option.map_eq_some_iff.mp h
        cases he
        exact ⟨(step_inv hs).1, .other hallows hs⟩
      · cases h
  | lock t =>
      simp only [Guarded.step] at h
      split at h
      · cases h
      · rename_i hcr
        split at h
        · cases h
        · rename_i hm
          obtain ⟨sec, hsec, he⟩ := Option.map_eq_some_iff.mp h
          cases he
          exact ⟨Bool.eq_false_iff.mpr hcr, .lock hm hsec⟩
  | op o =>
      simp only [Guarded.step] at h
      split at h
      · cases h
      · rename_i hcr
        refine ⟨Bool.eq_false_iff.mpr hcr, ?_⟩
        split at h
        · cases h
        · rename_i t sec hm
          obtain ⟨r, hr, he⟩ := Option.map_eq_some_iff.mp h
          cases he
          cases o with
          | copy =>
              cases sec with
              | locked c pid =>
                  obtain ⟨⟨s', e⟩, hcopy, he⟩ := Option.map_eq_some_iff.mp hr
                  cases he
                  exact .copyFirst hm hcopy
              | slot c pid old =>
                  obtain ⟨⟨s', e⟩, hcopy, he⟩ := Option.map_eq_some_iff.mp hr
                  cases he
                  exact .copyLast hm hcopy
              | _ => cases hr
          | slot =>
              cases sec with
              | locked c pid => cases hr; exact .slotFirst hm
              | copied pid e => cases hr; exact .slotLast hm
              | _ => cases hr
          | assign =>
              cases sec with
              | both pid e => cases hr; exact .assign hm
              | _ => cases hr
          | erase =>
              cases sec with
              | erasing =>
                  obtain ⟨f, hf, he⟩ := Option.map_eq_some_iff.mp hr
                  cases he
                  exact .erase hm hf
              | _ => cases hr
          | unlock =>
              cases sec with
              | done => cases hr; exact .unlock hm
              | _ => cases hr

/-! ### The state of the manager -/

/-- What a section shows of the key it is at: the entry that is put in, from the copy on. -/
def Section.shows : Section → Option (Int × Option (Option NativeEntry))
  | .copied pid e | .both pid e => some (pid, some (some e))
  | .slot _ pid old => some (pid, old)
  | _ => none

def State.showing (s : State) : Option (Int × Option (Option NativeEntry)) → State
  | none => s
  | some (q, x) => { s with nativeList := update s.nativeList q x }

def Guarded.shows (g : Guarded) : Option (Int × Option (Option NativeEntry)) :=
  g.mutex.bind fun m => m.2.shows

/-- The manager that does a section in one step: `make_shared` is that of the put. -/
def Guarded.atomic (g : Guarded) : State := g.state.showing g.shows

/-- The step of the manager. -/
def Guarded.label (g : Guarded) : GuardedLabel → Option Label
  | .other l => some l
  | .op .copy => g.mutex.map fun m => .step m.1 (Setup.example 0).mem 0
  | .op .erase => some (.jni 0)
  | _ => none

/-- The key of the native `processList` that `kill` looks for. -/
def State.looksFor (s : State) : Label → Option Int
  | .step t _ _ =>
      (s.calls t).bind fun call =>
        match call.pc with
        | .killCount pid _ | .killDeref pid _ => some pid
        | _ => none
  | _ => none

/-- `kill` does not look for the pid an entry is put in for. -/
def Guarded.Apart (g : Guarded) : GuardedLabel → Prop
  | .other l => ∀ kx ∈ g.shows, g.state.looksFor l ≠ some kx.1
  | _ => True

instance (g : Guarded) (m : GuardedLabel) : Decidable (g.Apart m) :=
  match m with
  | .other l => inferInstanceAs (Decidable (∀ kx ∈ g.shows, g.state.looksFor l ≠ some kx.1))
  | .lock _ | .op _ => .isTrue trivial

/-! ### Steps that leave the map alone -/

/-- A step of a call that does not look at the key `q` does the same whatever the map has for it. -/
theorem stepCall_showing {call : Call} {mem : Uninit} {now : Date} (hc : s.calls t = some call)
    (hv : s.putting t = none) (hk : s.looksFor (.step t mem now) ≠ some q) :
    (s.showing (some (q, x))).stepCall t call mem now =
      (s.stepCall t call mem now).map fun r => (r.1.showing (some (q, x)), r.2) := by
  have hlook {pid g : Int} (h : call.pc = .killCount pid g ∨ call.pc = .killDeref pid g) :
      pid ≠ q := by
    rintro rfl
    refine hk ?_
    rcases h with h | h <;> simp [State.looksFor, hc, h]
  unfold State.stepCall
  cases hpc : call.pc with
  | setTimeout | setPid | setStartedAt | killRead => rfl
  | create =>
      dsimp only [State.showing]
      split <;> rfl
  | spawning c =>
      dsimp only [State.showing]
      cases hsp : s.objs c with
      | none => rfl
      | some sp =>
          dsimp only
          cases hret : sp.child.pc with
          | returned r =>
              by_cases hr : r = 0
              · simp [State.putting, hc, hpc, hsp, hret, hr] at hv
              · simp [hr]
          | _ => rfl
  | javaPut c pid =>
      dsimp only [State.showing]
      cases s.objs c with
      | none => rfl
      | some sp =>
          dsimp only
          split
          · rfl
          · split <;> rfl
  | killCheck g =>
      rw [apply_ite (Option.map _)]
      rfl
  | killCount pid g =>
      have hmap : (s.showing (some (q, x))).nativeList pid = s.nativeList pid :=
        update_of_ne (hlook (.inl hpc)) _ _
      dsimp only
      rw [hmap]
      rw [apply_ite (Option.map _)]
      rfl
  | killDeref pid g =>
      dsimp only [State.showing]
      rw [update_of_ne (hlook (.inr hpc))]
      split
      · rfl
      · rw [Option.map_some, update_comm (hlook (.inr hpc))]

theorem stepSpawn_showing {call : Call} {i : Input} :
    (s.showing (some (q, x))).stepSpawn call i =
      (s.stepSpawn call i).map fun r => (r.1.showing (some (q, x)), r.2) := by
  unfold State.stepSpawn
  split
  · dsimp only [State.showing]
    cases s.objs _ with
    | none => rfl
    | some sp =>
        dsimp only
        split
        · rfl
        · rw [apply_ite (Option.map _)]
          rfl
  · rfl

theorem stepCallback_showing {c : ObjId} {i : Input} :
    (s.showing (some (q, x))).stepCallback c i =
      (s.stepCallback c i).map fun r => (r.1.showing (some (q, x)), r.2) := by
  unfold State.stepCallback
  dsimp only [State.showing]
  cases s.objs c with
  | none => rfl
  | some sp =>
      dsimp only
      split
      · rfl
      · split <;> rfl

theorem stepJni_showing {f : Frame} {now : Date} (hf : s.frame = some f)
    (hv : s.erasing .loop = false) :
    (s.showing (some (q, x))).stepJni f now =
      (s.stepJni f now).map fun r => (r.1.showing (some (q, x)), r.2) := by
  unfold State.stepJni
  dsimp only [State.showing]
  cases hpc : f.pc with
  | containsKey =>
      rw [apply_ite (Option.map _)]
      rfl
  | setCode | setSignal | setExitedAt =>
      dsimp only
      split <;> rfl
  | nullCheck =>
      dsimp only
      split
      · rw [apply_ite (Option.map _)]
        rfl
      · rfl
  | call =>
      dsimp only
      split
      · split <;> rfl
      · rfl
  | inListener | remove => rfl
  | erase => simp [State.erasing, hf, hpc] at hv
  | tail =>
      dsimp only
      split <;> rfl

/-- A step that is not made in a section, and does not look at the key `q`, does the same whatever
the map has for it. -/
theorem step_showing (hv : s.viaMutex l = false) (hk : s.looksFor l ≠ some q) :
    (s.showing (some (q, x))).step l =
      (s.step l).map fun r => (r.1.showing (some (q, x)), r.2) := by
  unfold State.step
  have hcr : (s.showing (some (q, x))).crashed = s.crashed := rfl
  rw [hcr]
  cases s.crashed with
  | true => rfl
  | false =>
      rw [if_neg Bool.false_ne_true, if_neg Bool.false_ne_true]
      cases l with
      | set => rfl
      | call t p api =>
          have hcan : (s.showing (some (q, x))).canCall t = s.canCall t := by cases t <;> rfl
          dsimp only
          rw [hcan, apply_ite (Option.map _)]
          rfl
      | step t mem now =>
          dsimp only
          have hcalls : (s.showing (some (q, x))).calls t = s.calls t := rfl
          rw [hcalls]
          cases hc : s.calls t with
          | none => rfl
          | some call =>
              have hput : s.putting t = none := by simpa [State.viaMutex] using hv
              exact stepCall_showing hc hput hk
      | spawn t i =>
          dsimp only
          have hcalls : (s.showing (some (q, x))).calls t = s.calls t := rfl
          rw [hcalls]
          cases hc : s.calls t with
          | none => rfl
          | some call => exact stepSpawn_showing
      | callback c i =>
          dsimp only
          rw [stepCallback_showing, apply_ite (Option.map _)]
          rfl
      | jni now =>
          dsimp only
          have hframe : (s.showing (some (q, x))).frame = s.frame := rfl
          rw [hframe]
          cases hf : s.frame with
          | none => rfl
          | some f => exact stepJni_showing hf hv
      | listenerReturns | listenerThrows =>
          dsimp only [State.showing]
          split
          · rw [apply_ite (Option.map _)]
            rfl
          · rfl
      | otherStarts | otherEnds =>
          dsimp only
          rw [apply_ite (Option.map _)]
          rfl

/-! ### What does not depend on the map -/

theorem putting_iff {c : ObjId} {pid : Int} : s.putting t = some (c, pid) ↔
    ∃ call sp, s.calls t = some call ∧ call.pc = .spawning c ∧ s.objs c = some sp ∧
      sp.child.pc = .returned 0 ∧ sp.child.obj.pid = pid := by
  unfold State.putting
  constructor
  · intro h
    split at h
    · cases h
    · rename_i call hc
      split at h
      · rename_i c' hpc
        split at h
        · cases h
        · rename_i sp hsp
          split at h
          · rename_i hret
            cases h
            exact ⟨call, sp, hc, hpc, hsp, hret, rfl⟩
          · cases h
      · cases h
  · rintro ⟨call, sp, hc, hpc, hsp, hret, rfl⟩
    simp [hc, hpc, hsp, hret, DoryProcessSpawn.getPid]

/-- The invariants of the manager that do not speak of the native `processList`. -/
structure Core (s : State) : Prop where
  objects : Objects s
  calls : Calls s
  frames : Frames s
  args : StatusArgs s

theorem Core.map (v : Core s) (m : Int → Option (Option NativeEntry)) :
    Core { s with nativeList := m } :=
  ⟨⟨v.objects.fresh, v.objects.reached, v.objects.holder⟩,
    ⟨v.calls.works, v.calls.one, v.calls.registered, v.calls.put⟩,
    ⟨v.frames.obj, v.frames.ofExit, v.frames.found⟩, v.args⟩

theorem Core.withSlot (v : Core s) (pid : Int) : Core (s.withSlot pid) := by
  unfold State.withSlot
  split
  · exact v.map _
  · exact v

theorem step_core (v : Core s) (hs : Step s l s' os) : Core s' :=
  ⟨step_objects v.objects hs, step_calls v.objects v.calls hs,
    step_frames v.objects v.calls v.frames hs, step_statusArgs v.objects v.args hs⟩

/-- A thread at its put stays there while others go on. -/
theorem putting_stays (v : Core s) (hs : Step s l s' os) (hl : l.thread? ≠ some t) {c : ObjId}
    {pid : Int} (h : s.putting t = some (c, pid)) : s'.putting t = some (c, pid) := by
  obtain ⟨call, sp, hc, hpc, hsp, hret, rfl⟩ := putting_iff.mp h
  obtain ⟨sp', hsp', hlater⟩ := step_later v.objects v.calls hs hsp
  have hret' := hlater.returned 0 hret
  obtain ⟨hb, hpid⟩ := (v.objects.reached c sp hsp).1.started hret
  obtain ⟨-, hpid'⟩ := ((step_objects v.objects hs).reached c sp' hsp').1.started hret'
  refine putting_iff.mpr ⟨call, sp', (step_calls_other hs hl).trans hc, hpc, hsp', hret', ?_⟩
  rw [hpid', hpid]
  exact (hlater.born hb).2

/-! ### What holds in a section -/

/-- The place of the thread in its call or its callback. -/
def Section.Holds (s : State) (t : Tid) : Section → Prop
  | .locked c pid | .slot c pid _ => s.putting t = some (c, pid)
  | .copied pid e | .both pid e =>
      0 < pid ∧ ∃ call, s.calls t = some call ∧ call.pc = .javaPut e.child pid
  | .erasing => s.erasing t = true
  | .done => True

structure GuardedInv (g : Guarded) : Prop where
  core : Core g.state
  held : ∀ t sec, g.mutex = some (t, sec) → sec.Holds g.state t

theorem init_guardedInv (puppies : PuppyId → List (Option JString) × StringTable) :
    GuardedInv ⟨.init puppies, none⟩ :=
  ⟨⟨init_objects puppies, init_calls puppies, init_frames puppies, fun f hf => by cases hf⟩,
    fun t sec h => by cases h⟩

theorem enters_holds {sec : Section} (h : s.enters t = some sec) : sec.Holds s t := by
  unfold State.enters at h
  split at h
  · rename_i c pid hput
    cases h
    exact hput
  · split at h
    · rename_i he
      cases h
      exact he
    · cases h

/-- The steps a thread in a section leaves to others keep its place. -/
theorem holds_stays {sec : Section} (v : Core s) (hs : Step s l s' os) (hl : l.runner? ≠ some t)
    (h : sec.Holds s t) : sec.Holds s' t := by
  have hthread : l.thread? ≠ some t := by
    intro ht
    refine hl ?_
    cases l <;> first | exact ht | cases ht
  cases sec with
  | locked | slot => exact putting_stays v hs hthread h
  | copied | both =>
      obtain ⟨hpos, call, hc, hpc⟩ := h
      exact ⟨hpos, call, (step_calls_other hs hthread).trans hc, hpc⟩
  | erasing =>
      cases t with
      | loop =>
          have hm : l.inMethod = false := by cases l <;> first | rfl | exact absurd rfl hl
          have hb : l.begins = false := by cases l <;> first | rfl | exact absurd rfl hl
          have he : s.erasing .loop = true := h
          have hframe := step_frame_other hs hm hb
          show s'.erasing .loop = true
          rw [State.erasing, hframe]
          exact he
      | caller => cases h
  | done => trivial

/-- The copy, with the entry stored at once, is the put of the manager. -/
theorem copy_put {c : ObjId} {pid : Int} {e : NativeEntry} (mem : Uninit) (now : Date)
    (hput : s.putting t = some (c, pid)) (hcopy : s.copy t c pid = some (s', e)) :
    s'.nativeList = s.nativeList ∧ Step s (.step t mem now)
      { s' with nativeList := update s.nativeList pid (some (some e)) } [] := by
  obtain ⟨call, sp, hc, hpc, hsp, hret, rfl⟩ := putting_iff.mp hput
  rw [State.copy, hc, hsp] at hcopy
  cases hcopy
  exact ⟨rfl, .nativePut hc hpc hsp hret⟩

theorem copy_core {c : ObjId} {pid : Int} {e : NativeEntry} (v : Core s)
    (hput : s.putting t = some (c, pid)) (hcopy : s.copy t c pid = some (s', e)) : Core s' := by
  obtain ⟨-, hs⟩ := copy_put (Setup.example 0).mem 0 hput hcopy
  have v' := (step_core v hs).map s'.nativeList
  exact v'

/-- After the copy the thread is on its way to `processList.put`. -/
theorem copy_holds {c : ObjId} {pid : Int} {e : NativeEntry} (v : Core s)
    (hput : s.putting t = some (c, pid)) (hcopy : s.copy t c pid = some (s', e)) :
    (Section.copied pid e).Holds s' t := by
  obtain ⟨call, sp, hc, hpc, hsp, hret, rfl⟩ := putting_iff.mp hput
  obtain ⟨hb, hpid⟩ := (v.objects.reached c sp hsp).1.started hret
  have hpos := (v.objects.reached c sp hsp).1.pid_pos hb
  rw [State.copy, hc, hsp] at hcopy
  cases hcopy
  exact ⟨hpid ▸ hpos, _, update_self .., rfl⟩

theorem erasing_frame {f : Frame} (he : s.erasing t = true) (hf : s.frame = some f) :
    t = .loop ∧ f.pc = .erase := by
  cases t with
  | loop => exact ⟨rfl, by simpa [State.erasing, hf] using he⟩
  | caller => cases he

theorem step_guardedInv (v : GuardedInv g) (h : g.step m = some (g', os)) : GuardedInv g' := by
  obtain ⟨-, hs⟩ := guarded_inv h
  cases hs with
  | @other l s' os hallows hs =>
      have hstep := (step_inv hs).2
      refine ⟨step_core v.core hstep, fun t sec hm => ?_⟩
      have hm : g.mutex = some (t, sec) := hm
      have hrun : l.runner? ≠ some t := by
        simpa [Guarded.allows, hm] using (Bool.and_eq_true_iff.mp hallows).2
      exact holds_stays v.core hstep hrun (v.held t sec hm)
  | lock hm hsec =>
      refine ⟨v.core, fun t sec h => ?_⟩
      cases h
      exact enters_holds hsec
  | copyFirst hm hcopy | copyLast hm hcopy =>
      refine ⟨copy_core v.core (v.held _ _ hm) hcopy, fun t sec h => ?_⟩
      cases h
      exact copy_holds v.core (v.held _ _ hm) hcopy
  | @slotFirst t c pid hm =>
      refine ⟨v.core.withSlot _, fun t sec h => ?_⟩
      cases h
      have hput : g.state.putting t = some (c, pid) := v.held _ _ hm
      show (g.state.withSlot pid).putting t = some (c, pid)
      unfold State.withSlot
      split <;> exact hput
  | @slotLast t pid e hm =>
      refine ⟨v.core.withSlot _, fun t sec h => ?_⟩
      cases h
      have hholds : (Section.copied pid e).Holds g.state t := v.held _ _ hm
      show (Section.both pid e).Holds (g.state.withSlot pid) t
      unfold State.withSlot
      split <;> exact hholds
  | assign => exact ⟨v.core.map _, fun t sec h => by cases h; trivial⟩
  | erase hm hf =>
      obtain ⟨rfl, hpc⟩ := erasing_frame (v.held _ _ hm) hf
      exact ⟨step_core v.core (.erase hf hpc : Step _ (.jni 0) _ _),
        fun t sec h => by cases h; trivial⟩
  | unlock => exact ⟨v.core, fun t sec h => by cases h⟩

/-! ### Followed by the manager -/

theorem enters_shows {sec : Section} (h : s.enters t = some sec) : sec.shows = none := by
  unfold State.enters at h
  split at h
  · cases h
    rfl
  · split at h
    · cases h
      rfl
    · cases h

theorem withSlot_update (s : State) (pid : Int) (y : Option (Option NativeEntry)) :
    update (s.withSlot pid).nativeList pid y = update s.nativeList pid y := by
  unfold State.withSlot
  split
  · exact update_idem ..
  · rfl

/-- What a section shows of the key it is at does not change by `operator[]`. -/
theorem withSlot_showing (s : State) (pid : Int) (y : Option (Option NativeEntry)) :
    (s.withSlot pid).showing (some (pid, y)) = s.showing (some (pid, y)) := by
  have hmap := withSlot_update s pid y
  simp only [State.showing, hmap]
  unfold State.withSlot
  split <;> rfl

/-- At the copy the manager makes its put. -/
theorem put_goes {c : ObjId} {pid : Int} {e : NativeEntry} {mem : Uninit} {now : Date}
    {sh : Option (Int × Option (Option NativeEntry))} (hcr : s.crashed = false)
    (hput : s.putting t = some (c, pid)) (hcopy : s.copy t c pid = some (s', e))
    (hsh : ∀ q x, sh = some (q, x) → q = pid) :
    (s.showing sh).step (.step t mem now) =
      some (s'.showing (some (pid, some (some e))), []) := by
  obtain ⟨call, sp, hc, hpc, hsp, hret, rfl⟩ := putting_iff.mp hput
  rw [State.copy, hc, hsp] at hcopy
  cases hcopy
  cases sh with
  | none =>
      rw [State.showing, call_goes hcr hc]
      simp [State.stepCall, hpc, hsp, hret, State.showing, DoryProcessSpawn.getPid]
  | some kx =>
      obtain ⟨q, x⟩ := kx
      obtain rfl := hsh q x rfl
      have hc' : (s.showing (some (sp.child.obj.pid, x))).calls t = some call := hc
      have hcr' : (s.showing (some (sp.child.obj.pid, x))).crashed = false := hcr
      rw [call_goes hcr' hc']
      simp [State.stepCall, hpc, hsp, hret, State.showing, DoryProcessSpawn.getPid]

theorem follows :
    guarded.Follows machine Guarded.Apart GuardedInv Guarded.atomic Guarded.label := by
  refine ⟨fun v _ h => step_guardedInv v h, ?_, ?_⟩
  · intro g g' m os l' v ha h hl
    obtain ⟨hcr, hs⟩ := guarded_inv h
    cases hs with
    | @other l s' os hallows hs =>
        cases hl
        have hvia : g.state.viaMutex l' = false := by
          simpa using (Bool.and_eq_true_iff.mp hallows).1
        show (g.state.showing g.shows).step l' = some (s'.showing g.shows, os)
        cases hsh : g.shows with
        | none => exact hs
        | some kx => rw [step_showing hvia (ha _ hsh), hs, Option.map_some]
    | @copyFirst t c pid s' e hm hcopy =>
        rw [Guarded.label, hm] at hl
        cases hl
        rw [Guarded.atomic, Guarded.shows, hm]
        exact put_goes hcr (v.held _ _ hm) hcopy fun q x h => by cases h
    | @copyLast t c pid old s' e hm hcopy =>
        rw [Guarded.label, hm] at hl
        cases hl
        rw [Guarded.atomic, Guarded.shows, hm]
        exact put_goes hcr (v.held _ _ hm) hcopy fun q x h => by cases h; rfl
    | @erase t f hm hf =>
        cases hl
        obtain ⟨-, hpc⟩ := erasing_frame (v.held _ _ hm) hf
        rw [Guarded.atomic, Guarded.shows, hm]
        show g.state.step (.jni 0) = _
        simp only [State.step, hcr, hf, State.stepJni, hpc, Bool.false_eq_true, if_false]
        rfl
    | _ => cases hl
  · intro g g' m os v _ h hl
    obtain ⟨hcr, hs⟩ := guarded_inv h
    cases hs with
    | @lock t sec hm hsec =>
        refine ⟨?_, rfl⟩
        simp [Guarded.atomic, Guarded.shows, hm, enters_shows hsec]
    | @slotFirst t c pid hm =>
        refine ⟨?_, rfl⟩
        rw [Guarded.atomic, Guarded.atomic, Guarded.shows, Guarded.shows, hm]
        refine (withSlot_showing g.state pid _).trans ?_
        simp [State.showing, Section.shows]
    | @slotLast t pid e hm =>
        refine ⟨?_, rfl⟩
        rw [Guarded.atomic, Guarded.atomic, Guarded.shows, Guarded.shows, hm]
        exact withSlot_showing g.state pid _
    | @assign t pid e hm =>
        refine ⟨?_, rfl⟩
        rw [Guarded.atomic, Guarded.atomic, Guarded.shows, Guarded.shows, hm]
        rfl
    | unlock hm =>
        refine ⟨?_, rfl⟩
        rw [Guarded.atomic, Guarded.atomic, Guarded.shows, Guarded.shows, hm]
        rfl
    | copyFirst hm | copyLast hm => simp [Guarded.label, hm] at hl
    | _ => cases hl

/-- **The sections are atomic** for everybody but a `kill` that looks for the pid at hand.  Every
run in which it does not, whatever the order of `make_shared` and `operator[]` and whatever goes on
beside a section, has a run of the manager with the same outputs, and its steps meet whatever
condition the steps they come from did. -/
theorem uvMutex_refines {puppies : PuppyId → List (Option JString) × StringTable}
    {D : State → Label → Prop} {h : History GuardedLabel Event}
    (r : guarded.RunWhere (fun g m => g.Apart m ∧ ∀ l, g.label m = some l → D g.atomic l)
      ⟨.init puppies, none⟩ h g) :
    ∃ k, machine.RunWhere D (.init puppies) k g.atomic ∧ k.outputs = h.outputs :=
  (follows.run (init_guardedInv puppies) r).2

/-- A section of a thread, its operations in the given order. -/
def inSection (t : Tid) (os : List Op) : List GuardedLabel :=
  .lock t :: os.map .op ++ [.op .unlock]

/-- A call of `start`, with a `kill` on another `DoryProcess` beside its section, and the exit. -/
def startsAndExits : List GuardedLabel :=
  (spawnsWith (.caller 0) 0 7).map .other ++
  [.lock (.caller 0), .op .slot, .other (.call (.caller 1) 1 (.puppyKill 9)),
    .other (go (.caller 1)), .op .copy, .other (go (.caller 1)), .op .assign, .op .unlock] ++
  [go (.caller 0), go (.caller 0), go (.caller 0)].map .other ++ ((exits 0).take 8).map .other ++
  inSection .loop [.erase] ++ [.other (.jni 0)]

theorem uvMutex_refines_example : ∃ h g k, h.inputs = startsAndExits ∧
    guarded.RunWhere (fun g m => g.Apart m ∧ ∀ l, g.label m = some l → True)
      ⟨.init examplePuppies, none⟩ h g ∧
    machine.Run (.init examplePuppies) k g.atomic ∧ k.outputs = h.outputs ∧
    Event.erased 7 (some 0) 0 ∈ k.outputs := by
  have hrun : ∃ h g, guarded.RunWhere (fun g m => decide (g.Apart m) = true)
      ⟨.init examplePuppies, none⟩ h g ∧ h.inputs = startsAndExits ∧
      Event.erased 7 (some 0) 0 ∈ h.outputs :=
    ⟨_, _, Machine.execWhere_run (M := guarded) (C := fun g m => decide (g.Apart m))
      (s := ⟨.init examplePuppies, none⟩) startsAndExits rfl, rfl,
      List.mem_of_elem_eq_true rfl⟩
  obtain ⟨h, g, r, hin, hmem⟩ := hrun
  have r := r.mono (D := fun (g : Guarded) m => g.Apart m ∧ ∀ l, g.label m = some l → True)
    fun _ _ hC => ⟨of_decide_eq_true hC, fun _ _ => trivial⟩
  obtain ⟨k, r', hk⟩ := uvMutex_refines (D := fun _ _ => True) r
  exact ⟨h, g, k, hin, r, r', hk, hk ▸ hmem⟩

/-- A `kill` that looks for the pid at hand finds the null entry of `operator[]`: the pid is that of
an earlier child, which the first `DoryProcess` still has. -/
example : ∃ h g, guarded.Run ⟨.init examplePuppies, none⟩ h g ∧
    Event.nullEntry 0 7 ∈ h.outputs :=
  ⟨_, _, Machine.exec_run (M := guarded) (s := ⟨.init examplePuppies, none⟩)
    ((spawnsWith (.caller 0) 0 7).map .other ++
      inSection (.caller 0) [.copy, .slot, .assign] ++
      [go (.caller 0), go (.caller 0), go (.caller 0)].map .other ++
      ((exits 0).take 8).map .other ++ inSection .loop [.erase] ++ [.other (.jni 0)] ++
      (spawnsWith (.caller 1) 1 7).map .other ++ [.lock (.caller 1), .op .slot] ++
      (killsUpTo (.caller 0) 0 ++ [go (.caller 0)]).map .other) rfl,
    List.mem_of_elem_eq_true rfl⟩

/-! ### The pids that `kill` looks for -/

/-- A child with the pid has been put in the Java map. -/
def Published (s : State) (q : Int) : Prop :=
  ∃ c sp, s.objs c = some sp ∧ sp.stage = .java ∧ born sp.child = true ∧
    sp.child.obj.process.pid = q

/-- The pid a call will write, or look for. -/
def CallPc.names : CallPc → Option Int
  | .setPid pid | .killCount pid _ | .killDeref pid _ => some pid
  | _ => none

/-- The pids in the fields and in the calls are those of children in the Java map, or 0. -/
structure Known (s : State) : Prop where
  field : ∀ p, (s.puppies p).pid ≠ 0 → Published s (s.puppies p).pid
  call : ∀ t call q, s.calls t = some call → call.pc.names = some q → q ≠ 0 → Published s q

theorem Published.step (v : Inv s) (hs : Step s l s' os) (h : Published s q) : Published s' q := by
  obtain ⟨c, sp, hsp, hst, hb, hq⟩ := h
  obtain ⟨sp', hsp', hl⟩ := step_later v.objects v.calls hs hsp
  exact ⟨c, sp', hsp', hl.java hst, (hl.born hb).1, (hl.born hb).2.trans hq⟩

theorem javaPut_published (v : Inv s) {mem : Uninit} {now : Date} {call : Call} {c : ObjId}
    (hs : Step s (.step t mem now) s' os) (hc : s.calls t = some call)
    (hpc : call.pc = .javaPut c q) (hpos : 0 < q) : Published s' q := by
  cases hs with
  | javaPut hc' hpc' hsp =>
      cases hc.symm.trans hc'
      cases hpc.symm.trans hpc'
      obtain ⟨-, -, hret, hpid⟩ := v.calls.javaPut hc hpc hsp hpos
      have hb := ((v.objects.reached _ _ hsp).1.started hret).1
      exact ⟨c, _, update_self .., rfl, hb, hpid⟩
  | javaThrow hc' hpc' hle =>
      cases hc.symm.trans hc'
      cases hpc.symm.trans hpc'
      exact absurd hpos hle.not_gt
  | killMove hc' hm =>
      cases hc.symm.trans hc'
      rw [hpc] at hm
      cases hm
  | setTimeout hc' hpc' | create hc' hpc' | nativePut hc' hpc' | spawnFailed hc' hpc'
  | setPid hc' hpc' | setStartedAt hc' hpc' | killDeref hc' hpc' | nullDeref hc' hpc' =>
      cases hc.symm.trans hc'
      cases hpc.symm.trans hpc'

theorem step_known (v : Inv s) (k : Known s) (hs : Step s l s' os) : Known s' := by
  refine ⟨fun p hne => ?_, fun t call q hc hq hne => ?_⟩
  · rcases pid_back hs p with hp | ⟨t, mem, now, call, q, -, hc, -, hpc, hp, -⟩
    · rw [hp] at hne ⊢
      exact (k.field p hne).step v hs
    · rw [hp] at hne ⊢
      exact (k.call t call q hc (by rw [hpc]; rfl) hne).step v hs
  · rcases call_back hs hc with hc | ⟨p, api, -, -, rfl⟩ | ⟨mem, now, call₀, rfl, hc₀, -, hm⟩
    · exact (k.call t call q hc hq hne).step v hs
    · cases api <;> cases hq
    · generalize hpc₀ : call₀.pc = pc₀ at hm
      generalize call.pc = pc at hm hq
      cases hm with
      | java hpos =>
          cases hq
          exact javaPut_published v hs hc₀ hpc₀ hpos
      | read =>
          cases hq
          exact (k.field _ hne).step v hs
      | count =>
          cases hq
          exact (k.call t call₀ q hc₀ (by rw [hpc₀]; rfl) hne).step v hs
      | _ => cases hq

/-- The child of a section is not in the Java map yet. -/
theorem shows_unpublished (v : Inv s) (d : Distinct s) {sec : Section} (h : sec.Holds s t)
    (hx : sec.shows = some (q, x)) : 0 < q ∧ ¬ Published s q := by
  -- the child of the section has the pid, and is not in the Java map
  have one {c : ObjId} {sp : Spawn} (hsp : s.objs c = some sp) (hst : sp.stage ≠ .java)
      (hret : sp.child.pc = .returned 0) (hq : sp.child.obj.process.pid = q) :
      0 < q ∧ ¬ Published s q := by
    have hb := ((v.objects.reached c sp hsp).1.started hret).1
    refine ⟨hq ▸ (v.objects.reached c sp hsp).1.pid_pos hb, ?_⟩
    rintro ⟨c', sp', hsp', hst', hb', hq'⟩
    obtain rfl := d.one _ _ _ _ hsp hsp' hb hb' (hq.trans hq'.symm)
    cases hsp.symm.trans hsp'
    exact hst hst'
  cases sec with
  | slot c pid old =>
      cases hx
      obtain ⟨call, sp, hc, hpc, hsp, hret, rfl⟩ := putting_iff.mp h
      obtain ⟨-, hnew⟩ := v.calls.spawning hc hpc hsp
      have hpid := ((v.objects.reached c sp hsp).1.started hret).2
      exact one hsp (by rw [hnew]; decide) hret hpid.symm
  | copied | both =>
      cases hx
      obtain ⟨hpos, call, hc, hpc⟩ := h
      obtain ⟨sp, hsp, -⟩ := v.calls.works t call _ hc (by rw [hpc]; rfl)
      obtain ⟨-, hst, hret, hpid⟩ := v.calls.javaPut hc hpc hsp hpos
      exact one hsp (by rw [hst]; decide) hret hpid
  | _ => cases hx

theorem looksFor_known (k : Known s) (h : s.looksFor l = some q) (hne : q ≠ 0) :
    Published s q := by
  cases l with
  | step t mem now =>
      obtain ⟨call, hc, hq⟩ := Option.bind_eq_some_iff.mp h
      refine k.call t call q hc ?_ hne
      cases hpc : call.pc <;> rw [hpc] at hq <;> cases hq <;> rfl
  | _ => cases h

theorem holds_showing {sec : Section} {sh : Option (Int × Option (Option NativeEntry))} :
    sec.Holds (s.showing sh) t ↔ sec.Holds s t := by
  cases sh <;> cases sec <;> rfl

theorem looksFor_showing {sh : Option (Int × Option (Option NativeEntry))} :
    (s.showing sh).looksFor l = s.looksFor l := by
  cases sh <;> cases l <;> rfl

/-- What holds of the manager when no pid is reused. -/
structure FreshInv (s : State) : Prop where
  inv : Inv s
  distinct : Distinct s
  known : Known s

theorem init_freshInv (puppies : PuppyId → List (Option JString) × StringTable) :
    FreshInv (.init puppies) :=
  ⟨init_inv puppies, run_distinct .nil,
    ⟨fun p hne => absurd rfl hne, fun t call q hc => by cases hc⟩⟩

/-- With no pid reused, `kill` does not look for the pid at hand. -/
theorem fresh_apart (w : GuardedInv g) (v : FreshInv g.atomic) (m : GuardedLabel) : g.Apart m := by
  cases m with
  | other l =>
      rintro ⟨q, x⟩ hx hlook
      obtain ⟨⟨t, sec⟩, hm, hsec⟩ := Option.bind_eq_some_iff.mp hx
      have hholds : sec.Holds g.atomic t := holds_showing.mpr (w.held t sec hm)
      obtain ⟨hpos, hnot⟩ := shows_unpublished v.inv v.distinct hholds hsec
      exact hnot (looksFor_known v.known (looksFor_showing.trans hlook) hpos.ne')
  | _ => trivial

/-- **With no pid reused the sections are atomic for `kill` too.**  Every run with the sections in
which `uv_spawn` takes no pid that an earlier child had has a run of the manager with no pid reused
and the same outputs: `kill` never finds the null entry of `operator[]`. -/
theorem uvMutex_fresh {puppies : PuppyId → List (Option JString) × StringTable}
    {h : History GuardedLabel Event}
    (r : guarded.RunWhere (fun g m => ∀ l, g.label m = some l → pidFresh g.atomic l = true)
      ⟨.init puppies, none⟩ h g) :
    ∃ k, machine.RunWhere (fun s l => pidFresh s l = true) (.init puppies) k g.atomic ∧
      k.outputs = h.outputs := by
  have f := follows.strengthen (D := fun s l => pidFresh s l = true) (J := FreshInv)
    (fun v hC hs => ⟨step_keeps_inv v.inv hs, step_distinct v.inv v.distinct hC (step_inv hs).2,
      step_known v.inv v.known (step_inv hs).2⟩)
    fun w v => fresh_apart w v _
  exact (f.run ⟨init_guardedInv puppies, init_freshInv puppies⟩ (r.mono fun _ _ h => ⟨h, h⟩)).2

theorem uvMutex_fresh_example : ∃ h g k, h.inputs = startsAndExits ∧
    guarded.RunWhere (fun g m => ∀ l, g.label m = some l → pidFresh g.atomic l = true)
      ⟨.init examplePuppies, none⟩ h g ∧
    machine.RunWhere (fun s l => pidFresh s l = true) (.init examplePuppies) k g.atomic ∧
    k.outputs = h.outputs := by
  have hrun : ∃ h g, guarded.RunWhere
      (fun g m => ((g.label m).all fun l => pidFresh g.atomic l) = true)
      ⟨.init examplePuppies, none⟩ h g ∧ h.inputs = startsAndExits :=
    ⟨_, _, Machine.execWhere_run (M := guarded)
      (C := fun g m => (g.label m).all fun l => pidFresh g.atomic l)
      (s := ⟨.init examplePuppies, none⟩) startsAndExits rfl, rfl⟩
  obtain ⟨h, g, r, hin⟩ := hrun
  have r := r.mono
    (D := fun (g : Guarded) m => ∀ l, g.label m = some l → pidFresh g.atomic l = true)
    fun _ _ hC => (Option.all_eq_true _ _).mp hC
  obtain ⟨k, r', hk⟩ := uvMutex_fresh r
  exact ⟨h, g, k, hin, r, r', hk⟩

/-! ### Coming to rest with the mutex -/

/-- A step of what is under way. -/
def GuardedLabel.internal : GuardedLabel → Bool
  | .other l => l.internal
  | _ => true

/-- The steps of a section, against six for each step of the manager. -/
def Section.stepsLeft : Section → Nat
  | .copied _ _ => 5
  | .both _ _ => 4
  | .done => 3
  | .locked _ _ | .erasing => 1
  | .slot _ _ _ => 0

def Guarded.toRest (T : Finset Tid) (g : Guarded) : Nat :=
  6 * g.state.toRest T + (g.mutex.map fun m => m.2.stepsLeft).getD 2

theorem Guarded.toRest_le (T : Finset Tid) (g : Guarded) :
    g.toRest T ≤ 6 * (13 * T.card + 10) + 5 := by
  have hstate := g.state.toRest_le T
  have hsec : (g.mutex.map fun m => m.2.stepsLeft).getD 2 ≤ 5 := by
    cases g.mutex with
    | none => decide
    | some m =>
        simp only [Option.map_some, Option.getD_some]
        cases m.2 <;> simp [Section.stepsLeft]
  unfold Guarded.toRest
  omega

/-- What the steps to rest keep. -/
structure GuardedWithin (T : Finset Tid) (g : Guarded) : Prop where
  inv : GuardedInv g
  callers : ∀ t, (g.state.calls t).isSome → t ∈ T

theorem GuardedWithin.within {T : Finset Tid} (w : GuardedWithin T g) : Within T g.state :=
  ⟨w.inv.core.objects, w.inv.core.calls, w.inv.core.frames, w.inv.core.args, w.callers⟩

theorem enters_stepsLeft {sec : Section} (h : s.enters t = some sec) : sec.stepsLeft = 1 := by
  unfold State.enters at h
  split at h
  · cases h
    rfl
  · split at h
    · cases h
      rfl
    · cases h

theorem withSlot_calls (s : State) (pid : Int) : (s.withSlot pid).calls = s.calls := by
  unfold State.withSlot
  split <;> rfl

theorem withSlot_toRest (T : Finset Tid) (s : State) (pid : Int) :
    (s.withSlot pid).toRest T = s.toRest T := by
  unfold State.withSlot
  split <;> rfl

/-- Each step of what is under way brings it nearer to rest. -/
theorem guarded_toRest {T : Finset Tid} (w : GuardedWithin T g) (hm : m.internal = true)
    (h : g.step m = some (g', os)) : GuardedWithin T g' ∧ g'.toRest T < g.toRest T := by
  have v' := step_guardedInv w.inv h
  obtain ⟨hcr, hs⟩ := guarded_inv h
  -- the copy is the put of the manager, but for the map
  have copied {t : Tid} {c : ObjId} {pid : Int} {s' : State} {e : NativeEntry}
      (hput : g.state.putting t = some (c, pid)) (hcopy : g.state.copy t c pid = some (s', e)) :
      (∀ t, (s'.calls t).isSome → t ∈ T) ∧ s'.toRest T < g.state.toRest T := by
    have hstep := (copy_put (Setup.example 0).mem 0 hput hcopy).2
    obtain ⟨w', hlt⟩ := step_toRest w.within hcr rfl hstep
    exact ⟨w'.callers, hlt⟩
  cases hs with
  | other hallows hs =>
      obtain ⟨w', hlt⟩ := step_toRest w.within hcr hm (step_inv hs).2
      refine ⟨⟨v', w'.callers⟩, ?_⟩
      unfold Guarded.toRest
      dsimp only
      omega
  | lock hnone hsec =>
      refine ⟨⟨v', w.callers⟩, ?_⟩
      simp [Guarded.toRest, hnone, enters_stepsLeft hsec]
  | copyFirst hmx hcopy =>
      obtain ⟨hcallers, hlt⟩ := copied (w.inv.held _ _ hmx) hcopy
      refine ⟨⟨v', hcallers⟩, ?_⟩
      simp only [Guarded.toRest, hmx, Option.map_some, Option.getD_some, Section.stepsLeft]
      omega
  | copyLast hmx hcopy =>
      obtain ⟨hcallers, hlt⟩ := copied (w.inv.held _ _ hmx) hcopy
      refine ⟨⟨v', hcallers⟩, ?_⟩
      simp only [Guarded.toRest, hmx, Option.map_some, Option.getD_some, Section.stepsLeft]
      omega
  | slotFirst hmx | slotLast hmx =>
      refine ⟨⟨v', by simpa only [withSlot_calls] using w.callers⟩, ?_⟩
      simp [Guarded.toRest, hmx, withSlot_toRest, Section.stepsLeft]
  | @assign t pid e hmx =>
      refine ⟨⟨v', w.callers⟩, ?_⟩
      have hsame : ({ g.state with
          nativeList := update g.state.nativeList pid (some (some e)) } : State).toRest T =
          g.state.toRest T := rfl
      simp [Guarded.toRest, hmx, hsame, Section.stepsLeft]
  | erase hmx hf =>
      obtain ⟨-, hpc⟩ := erasing_frame (w.inv.held _ _ hmx) hf
      obtain ⟨w', hlt⟩ := step_toRest w.within hcr rfl (.erase hf hpc : Step _ (.jni 0) _ _)
      refine ⟨⟨v', w'.callers⟩, ?_⟩
      simp only [Guarded.toRest, hmx, Option.map_some, Option.getD_some, Section.stepsLeft]
      omega
  | unlock hmx =>
      refine ⟨⟨v', w.callers⟩, ?_⟩
      simp [Guarded.toRest, hmx, Section.stepsLeft]

theorem guarded_drains (T : Finset Tid) :
    guarded.Drains (fun _ m => m.internal = true) (GuardedWithin T) (Guarded.toRest T) :=
  ⟨fun w hm h => guarded_toRest w hm h⟩

/-- The thread that has the mutex goes on. -/
theorem section_goes (v : GuardedInv g) (hcr : g.state.crashed = false) {sec : Section}
    (hm : g.mutex = some (t, sec)) : ∃ o, (g.step (.op o)).isSome := by
  have copies {c : ObjId} {pid : Int} (h : g.state.putting t = some (c, pid)) :
      (g.state.copy t c pid).isSome := by
    obtain ⟨call, sp, hc, -, hsp, -⟩ := putting_iff.mp h
    simp [State.copy, hc, hsp]
  have hstep (o : Op) : (g.step (.op o)).isSome = (g.state.stepSection t sec o).isSome := by
    simp [Guarded.step, hcr, hm]
  have hholds := v.held t sec hm
  simp only [hstep]
  cases sec with
  | locked c pid | slot c pid old => exact ⟨.copy, by simpa [State.stepSection] using copies hholds⟩
  | copied => exact ⟨.slot, rfl⟩
  | both => exact ⟨.assign, rfl⟩
  | erasing =>
      refine ⟨.erase, ?_⟩
      cases t with
      | loop =>
          obtain ⟨f, hf, -⟩ := (Option.any_eq_true ..).mp hholds
          simp [State.stepSection, hf]
      | caller => cases hholds
  | done => exact ⟨.unlock, rfl⟩

/-- With the mutex free, a step of the manager is one here too, or a thread gets the mutex. -/
theorem free_goes (hm : g.mutex = none) (hcr : g.state.crashed = false)
    (h : (g.state.step l).isSome) :
    (g.step (.other l)).isSome ∨ ∃ t, (g.step (.lock t)).isSome := by
  cases hv : g.state.viaMutex l with
  | false =>
      left
      simpa [Guarded.step, Guarded.allows, hm, hv] using h
  | true =>
      right
      cases l with
      | step t mem now =>
          refine ⟨t, ?_⟩
          obtain ⟨⟨c, pid⟩, hput⟩ := Option.isSome_iff_exists.mp hv
          simp [Guarded.step, hcr, hm, State.enters, hput]
      | jni now =>
          have he : g.state.erasing .loop = true := hv
          refine ⟨.loop, ?_⟩
          simp only [Guarded.step, hcr, hm, State.enters, Bool.false_eq_true, if_false]
          cases g.state.putting .loop <;> simp [he]
      | _ => cases hv

theorem guarded_rest (v : GuardedInv g) (hrest : ∀ m, m.internal = true → g.step m = none) :
    g.state.crashed = true ∨ g.mutex = none ∧ g.state.Quiescent ∨ g.state.AtNull := by
  cases hcr : g.state.crashed with
  | true => exact .inl rfl
  | false =>
      right
      cases hm : g.mutex with
      | some m =>
          obtain ⟨o, ho⟩ := section_goes v hcr hm
          rw [hrest (.op o) rfl] at ho
          cases ho
      | none =>
          have hstate (l : Label) (hl : l.internal = true) : g.state.step l = none := by
            by_contra hne
            rcases free_goes hm hcr (Option.isSome_iff_ne_none.mpr hne) with h | ⟨t, h⟩
            · rw [hrest (.other l) hl] at h
              cases h
            · rw [hrest (.lock t) rfl] at h
              cases h
          rcases at_rest v.core.calls v.core.frames v.core.args hstate with h | h
          · rw [hcr] at h
            cases h
          · exact h.imp_left fun hq => ⟨rfl, hq⟩

/-- What is kept in every run with the sections. -/
theorem guarded_run {puppies : PuppyId → List (Option JString) × StringTable}
    {h : History GuardedLabel Event} (r : guarded.Run ⟨.init puppies, none⟩ h g) :
    GuardedInv g ∧ {t | (g.state.calls t).isSome}.Finite := by
  refine r.inv (fun _ g => GuardedInv g ∧ {t | (g.state.calls t).isSome}.Finite)
    ⟨init_guardedInv puppies, by simp [State.init]⟩ ?_
  rintro h g g' m os - - hs ⟨v, hfin⟩
  refine ⟨step_guardedInv v hs, ?_⟩
  cases (guarded_inv hs).2 with
  | other _ hs => exact step_calls_finite (step_inv hs).2 hfin
  | copyFirst hm hcopy | copyLast hm hcopy =>
      have hput := (copy_put (Setup.example 0).mem 0 (v.held _ _ hm) hcopy).2
      have hfin' := step_calls_finite hput hfin
      exact hfin'
  | slotFirst | slotLast => simpa only [withSlot_calls] using hfin
  | _ => exact hfin

/-- **The mutex holds nobody up.**  From every state that is reached with the sections, with `kill`
at any moment, a run of what is under way has at most a bounded number of steps, in whatever order
they come; it stops only with the mutex free and nothing under way, at a null entry or a command
with a null element; and some such run does stop. -/
theorem uvMutex_rests {puppies : PuppyId → List (Option JString) × StringTable} {g₀ : Guarded}
    {h₀ : History GuardedLabel Event} (r : guarded.Run ⟨.init puppies, none⟩ h₀ g₀) :
    {t | (g₀.state.calls t).isSome}.Finite ∧
    (∀ h g, guarded.RunWhere (fun _ m => m.internal = true) g₀ h g →
      h.length ≤ 6 * (13 * {t | (g₀.state.calls t).isSome}.ncard + 10) + 5 ∧
      ((∀ m, m.internal = true → g.step m = none) →
        g.state.crashed = true ∨ g.mutex = none ∧ g.state.Quiescent ∨ g.state.AtNull)) ∧
    ∃ h g, guarded.RunWhere (fun _ m => m.internal = true) g₀ h g ∧
      ∀ m, m.internal = true → g.step m = none := by
  obtain ⟨v, hfin⟩ := guarded_run r
  have w : GuardedWithin hfin.toFinset g₀ := ⟨v, fun t ht => by simpa using ht⟩
  refine ⟨hfin, fun h g r' => ?_, (guarded_drains _).rests w⟩
  obtain ⟨w', hle⟩ := (guarded_drains _).bound w r'
  refine ⟨?_, guarded_rest w'.inv⟩
  rw [Set.ncard_eq_toFinset_card _ hfin]
  have := g₀.toRest_le hfin.toFinset
  omega

/-- A thread inside its section, after `operator[]`. -/
theorem uvMutex_rests_example : ∃ h g, guarded.Run ⟨.init examplePuppies, none⟩ h g ∧
    h.inputs = (spawnsWith (.caller 0) 0 7).map .other ++ [.lock (.caller 0), .op .slot] ∧
    ∃ k g', guarded.RunWhere (fun _ m => m.internal = true) g k g' ∧
      (g'.state.crashed = true ∨ g'.mutex = none ∧ g'.state.Quiescent ∨ g'.state.AtNull) := by
  have r := Machine.exec_run (M := guarded) (s := ⟨.init examplePuppies, none⟩)
    ((spawnsWith (.caller 0) 0 7).map .other ++ [.lock (.caller 0), .op .slot]) rfl
  obtain ⟨-, hruns, k, g', rk, hrest⟩ := uvMutex_rests r
  exact ⟨_, _, r, rfl, k, g', rk, (hruns k g' rk).2 hrest⟩

end Dorypuppy.Manager

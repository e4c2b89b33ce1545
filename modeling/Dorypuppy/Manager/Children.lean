import Dorypuppy.Support.Simulation
import Dorypuppy.Native.Handles
import Dorypuppy.Native.ExitJoin
import Dorypuppy.Manager.Registry
import Dorypuppy.Manager.Listening

/-!
# Manager — its children are children

The manager runs the code of one child on two threads: a caller's thread is in `spawn()`, and the
loop thread in a callback, which stays for a while in a method of `DoryPuppy`.  Here each child of
the manager is one of `Child.machine`, so what holds of the runs of that machine holds of it.

* `child_run`: in every run of the manager, what a native object does is a run of a child with the
  same callbacks; only what a callback does after the method of `DoryPuppy` comes later than there.
* `child_run_apart`: a child whose `spawn()` takes no step while its callback is in such a method
  does all of it in the order of `Child.machine`.
* `handles_closed`, `exits_joined`: what the runs of `Child.machine` are known to do, read off for
  the manager.
-/

namespace Dorypuppy.Manager

open Child (Reached)
open Support (Machine History part part_own part_other part_eq_some filterMap_part_own
  filterMap_part_other)
open Function (update update_self update_of_ne)

variable {s s' : State} {l : Label} {os : List Event} {c : ObjId}

/-! ### What a child does -/

def Event.acted : Event → Option (ObjId × Act JniCallback)
  | .act c a => some (c, a)
  | _ => none

def Event.act? (c : ObjId) : Event → Option (Act JniCallback) := part Event.acted c

/-- What the native object `c` did. -/
def acts (c : ObjId) (os : List Event) : List (Act JniCallback) := os.filterMap (Event.act? c)

/-- What a callback does after the registered function: it frees its buffer, or the timer's sends
its signal. -/
def isLate : Act JniCallback → Bool
  | .free | .uv (.processKill _ _) => true
  | _ => false

def early? (a : Act JniCallback) : Option (Act JniCallback) :=
  if isLate a then none else some a

/-- What the native object did, but for the signals it sent and the buffers it freed. -/
def Event.early? (c : ObjId) (e : Event) : Option (Act JniCallback) :=
  (e.act? c).bind Manager.early?

/-- What the callback of the child has yet to do after the method of `DoryPuppy`. -/
def State.owed (s : State) (c : ObjId) : List (Act JniCallback) :=
  match s.frame with
  | none => []
  | some f =>
      if f.child = c then
        match (s.objs c).map Spawn.child with
        | none => []
        | some ch => ch.callbackTail f.input
      else []

/-- The input of the child in a step of the manager. -/
def childInput (s : State) (c : ObjId) : Label → Option Input
  | .callback c' i => if c' = c then some i else none
  | .spawn t i => if (s.calls t).any (fun call => call.pc = .spawning c) then some i else none
  | _ => none

def Label.calledBack : Label → Option (ObjId × Input)
  | .callback c i => some (c, i)
  | _ => none

def Label.callback? (c : ObjId) : Label → Option Input := part Label.calledBack c

/-- The child's `spawn()` does not take a step while its callback is in a method. -/
def apart (c : ObjId) (s : State) (l : Label) : Bool :=
  match l, s.frame with
  | .spawn _ _, some f => f.child ≠ c || (childInput s c l).isNone
  | _, _ => true

@[simp] theorem acts_nil : acts c [] = [] := rfl

@[simp] theorem acts_append (os os' : List Event) :
    acts c (os ++ os') = acts c os ++ acts c os' := List.filterMap_append

theorem acts_own (as : List (Act JniCallback)) : acts c (as.map (.act c)) = as :=
  filterMap_part_own Event.acted (fun _ => rfl) as

theorem acts_other {c' : ObjId} (hne : c' ≠ c) (as : List (Act JniCallback)) :
    acts c (as.map (.act c')) = [] := filterMap_part_other Event.acted (fun _ => rfl) hne as

theorem early_eq (os : List Event) :
    os.filterMap (Event.early? c) = (acts c os).filterMap early? :=
  (List.filterMap_filterMap ..).symm

theorem late_early {as : List (Act JniCallback)} (h : ∀ a ∈ as, isLate a = true) :
    as.filterMap early? = [] := by
  rw [List.filterMap_eq_nil_iff]
  exact fun a ha => if_pos (h a ha)

theorem mem_acts {a : Act JniCallback} {os : List Event} : a ∈ acts c os ↔ .act c a ∈ os := by
  rw [acts, List.mem_filterMap]
  constructor
  · rintro ⟨e, he, hea⟩
    have hea := part_eq_some.mp hea
    cases e with
    | act => cases hea; exact he
    | _ => cases hea
  · exact fun he => ⟨_, he, part_own rfl⟩

theorem mem_early {a : Act JniCallback} (ha : isLate a = false) {as : List (Act JniCallback)} :
    a ∈ as.filterMap early? ↔ a ∈ as := by
  rw [List.mem_filterMap]
  constructor
  · rintro ⟨b, hb, hba⟩
    rw [early?, Option.ite_none_left_eq_some] at hba
    cases hba.2
    exact hb
  · exact fun h => ⟨a, h, by simp [early?, ha]⟩

/-- What is not late was done, if all but the late was. -/
theorem mem_of_early {a : Act JniCallback} (ha : isLate a = false) {as : List (Act JniCallback)}
    {os : List Event} (h : as.filterMap early? = (acts c os).filterMap early?) :
    a ∈ as ↔ .act c a ∈ os := by
  rw [← mem_early ha, h, mem_early ha, mem_acts]

theorem early_filterMap {β : Type} {f : Act JniCallback → Option β}
    (hf : ∀ a, isLate a = true → f a = none) (as : List (Act JniCallback)) :
    (as.filterMap early?).filterMap f = as.filterMap f := by
  rw [List.filterMap_filterMap]
  congr 1
  funext a
  cases ha : isLate a with
  | true => simp [early?, ha, hf a ha]
  | false => simp [early?, ha]

theorem callbackTail_late (ch : Child JniCallback) (i : Input) :
    ∀ a ∈ ch.callbackTail i, isLate a = true := by
  cases i <;> simp [Child.callbackTail, DoryProcessSpawn.timerCbTail, DoryProcessSpawn.readCbTail,
    isLate]

theorem owed_late : ∀ a ∈ s.owed c, isLate a = true := by
  intro a ha
  unfold State.owed at ha
  split at ha
  · cases ha
  · split at ha
    · split at ha
      · cases ha
      · exact callbackTail_late _ _ a ha
    · cases ha

theorem owed_none (hf : s.frame = none) : s.owed c = [] := by
  rw [State.owed, hf]

theorem owed_own {f : Frame} {sp : Spawn} (hf : s.frame = some f) (hc : f.child = c)
    (hsp : s.objs c = some sp) : s.owed c = sp.child.callbackTail f.input := by
  simp only [State.owed, hf, if_pos hc, hsp, Option.map_some]

theorem owed_other {f : Frame} (hf : s.frame = some f) (hc : f.child ≠ c) : s.owed c = [] := by
  simp only [State.owed, hf, if_neg hc]

/-- What is owed depends on the child and on the input of its callback. -/
theorem owed_same {f f' : Frame} (hf : s.frame = some f) (hf' : s'.frame = some f')
    (hc : f'.child = f.child) (hi : f'.input = f.input)
    (ho : (s'.objs c).map Spawn.child = (s.objs c).map Spawn.child) : s'.owed c = s.owed c := by
  simp only [State.owed, hf, hf', hc, hi, ho]

/-! ### One step -/

/-- The callbacks of the child are its inputs that are callbacks. -/
theorem childInput_callback (hs : Step s l s' os) :
    (childInput s c l).filter Input.isCallback = l.callback? c := by
  cases hs with
  | spawn hcall hpc _ hst =>
      simp only [childInput, Label.callback?, part, Label.calledBack]
      split
      · simp only [Option.filter_some, Child.spawnStep_isCallback hst, Bool.false_eq_true, if_false]
      · rfl
  | callback _ _ hst | callbackInvoke _ _ hst =>
      simp only [childInput, Label.callback?, part, Label.calledBack]
      split
      · simp only [Option.filter_some, Child.callbackHead_isCallback hst, if_true]
      · rfl
  | _ => rfl

/-- What a step is for a child: nothing, or one of its own. -/
inductive ChildStep (c : ObjId) (s s' : State) (l : Label) (os : List Event) (sp : Spawn) : Prop
  | still : childInput s c l = none →
      (s'.objs c).map Spawn.child = some sp.child → s.owed c = acts c os ++ s'.owed c →
      ChildStep c s s' l os sp
  | moves {i ch as} : childInput s c l = some i → Child.step sp.child i = some (ch, as) →
      (s'.objs c).map Spawn.child = some ch →
      (acts c os).filterMap early? = as.filterMap early? →
      (apart c s l = true → s.owed c ++ as = acts c os ++ s'.owed c) →
      ChildStep c s s' l os sp

theorem step_child (v : Inv s) {sp : Spawn} (hsp : s.objs c = some sp) (hs : Step s l s' os) :
    ChildStep c s s' l os sp := by
  -- the callback of the loop thread goes on
  have moved {f : Frame} {pc : JniPc} (hl : childInput s c l = none) (hf : s.frame = some f)
      (hf' : s'.frame = some { f with pc := pc }) (ho : s'.objs = s.objs) (ha : acts c os = []) :
      ChildStep c s s' l os sp := by
    refine .still hl (by rw [ho, hsp]; rfl) ?_
    rw [ha, owed_same hf hf' rfl rfl (by rw [ho])]
    rfl
  have still (hl : childInput s c l = none) (hf : s'.frame = s.frame)
      (ho : (s'.objs c).map Spawn.child = some sp.child) (ha : acts c os = []) :
      ChildStep c s s' l os sp := by
    refine .still hl ho ?_
    rw [ha, State.owed, State.owed, hf, ho, hsp]
    rfl
  -- an object is updated, and its child stays what it was
  have stage {c₁ : ObjId} {sp₁ : Spawn} {st : Stage} (hsp₁ : s.objs c₁ = some sp₁)
      (ho : s'.objs = update s.objs c₁ (some { sp₁ with stage := st })) :
      (s'.objs c).map Spawn.child = some sp.child := by
    rw [ho]
    by_cases hc : c = c₁
    · subst hc
      cases hsp.symm.trans hsp₁
      rw [update_self]
      rfl
    · rw [update_of_ne hc, hsp]
      rfl
  have another {c₁ : ObjId} {x : Option Spawn} (hc : c₁ ≠ c)
      (ho : s'.objs = update s.objs c₁ x) :
      (s'.objs c).map Spawn.child = some sp.child := by
    rw [ho, update_of_ne (Ne.symm hc), hsp]
    rfl
  cases hs with
  | create =>
      refine still rfl rfl (another ?_ rfl) rfl
      rintro rfl
      rw [v.objects.fresh _ le_rfl] at hsp
      cases hsp
  | nativePut _ _ hsp₁ => exact still rfl rfl (stage hsp₁ rfl) rfl
  | javaPut _ _ hsp₁ =>
      refine still rfl rfl (stage hsp₁ rfl) ?_
      split <;> rfl
  | @spawn t i call c₁ sp₁ ch as hcall hpc hsp₁ hst =>
      by_cases hc : c₁ = c
      · subst hc
        cases hsp.symm.trans hsp₁
        have hin : childInput s c₁ (.spawn t i) = some i := by simp [childInput, hcall, hpc]
        refine .moves hin (Child.spawnStep_step hst) ?_ ?_ fun ha => ?_
        · dsimp only [State.withChild]
          rw [update_self]
          rfl
        · rw [acts_own]
        · have hnone (x : State) (hx : x.frame = s.frame) : x.owed c₁ = [] := by
            cases hf : s.frame with
            | none => exact owed_none (hx.trans hf)
            | some f =>
                refine owed_other (hx.trans hf) fun hfc => ?_
                simp [apart, hf, hfc, hin] at ha
          rw [acts_own, hnone s rfl, hnone (s.withChild c₁ sp i ch) rfl, List.append_nil]
          rfl
      · exact still (by simp [childInput, hcall, hpc, hc]) rfl (another hc rfl) (acts_other hc _)
  | @callback c₁ i sp₁ ch as hnone hsp₁ hst =>
      by_cases hc : c₁ = c
      · subst hc
        cases hsp.symm.trans hsp₁
        refine .moves (if_pos rfl) (Child.callbackHead_step hst) ?_ ?_ fun _ => ?_
        · dsimp only [State.withChild]
          rw [update_self]
          rfl
        · rw [acts_own]
        · rw [acts_own, owed_none hnone, owed_none (s := s.withChild c₁ sp i ch) hnone,
            List.append_nil]
          rfl
      · exact still (if_neg hc) rfl (another hc rfl) (acts_other hc _)
  | @callbackInvoke c₁ i sp₁ ch as k args pid hnone hsp₁ hst =>
      by_cases hc : c₁ = c
      · subst hc
        cases hsp.symm.trans hsp₁
        refine .moves (if_pos rfl) (Child.callbackHead_step hst) ?_ ?_ fun _ => ?_
        · dsimp only [State.withChild]
          rw [update_self]
          rfl
        · rw [acts_own, List.filterMap_append, late_early (callbackTail_late ch i),
            List.append_nil]
        · have howed : State.owed { s.withChild c₁ sp i ch with
              frame := some ⟨c₁, i, k, pid, jniArgs args, .containsKey⟩ } c₁ =
              ch.callbackTail i := by
            have hobj : (s.withChild c₁ sp i ch).objs c₁ = some { sp with child := ch } :=
              update_self ..
            simp only [State.owed, hobj, if_true, Option.map_some]
          rw [acts_own, owed_none hnone, howed]
          rfl
      · refine .still (if_neg hc) (another hc rfl) ?_
        have howed : State.owed { s.withChild c₁ sp₁ i ch with
            frame := some ⟨c₁, i, k, pid, jniArgs args, .containsKey⟩ } c = [] :=
          owed_other (f := ⟨c₁, i, k, pid, jniArgs args, .containsKey⟩) rfl hc
        rw [acts_other hc, owed_none hnone, howed]
        rfl
  | jniMove hf | write hf | listener hf | nullPointer hf | remove hf | erase hf
  | listenerReturns hf | listenerThrows hf => exact moved rfl hf rfl rfl rfl
  | @tail now f sp₁ hf hpc hsp₁ =>
      refine .still rfl (by rw [hsp]; rfl) ?_
      by_cases hc : f.child = c
      · subst hc
        cases hsp.symm.trans hsp₁
        have howed : State.owed { s with frame := none } f.child = [] := owed_none rfl
        rw [acts_own, owed_own hf rfl hsp, howed, List.append_nil]
      · have howed : State.owed { s with frame := none } c = [] := owed_none rfl
        rw [acts_other hc, owed_other hf hc, howed]
        rfl
  | _ => exact still rfl rfl (by rw [hsp]; rfl) rfl

/-! ### Whole runs -/

/-- The child of a native object, or `d` as long as there is none. -/
def State.childOr (s : State) (c : ObjId) (d : Child JniCallback) : Child JniCallback :=
  ((s.objs c).map Spawn.child).getD d

theorem childOr_eq {d ch : Child JniCallback} (h : (s.objs c).map Spawn.child = some ch) :
    s.childOr c d = ch := by
  rw [State.childOr, h, Option.getD_some]

theorem childOr_of {d : Child JniCallback} {sp : Spawn} (h : s.objs c = some sp) :
    s.childOr c d = sp.child := childOr_eq (by rw [h, Option.map_some])

/-- The invariants, once the native object has been made. -/
def Exists (c : ObjId) (s : State) : Prop := Inv s ∧ (s.objs c).isSome

theorem exists_keep (hI : Exists c s) (hs : machine.step s l = some (s', os)) : Exists c s' := by
  obtain ⟨sp, hsp⟩ := Option.isSome_iff_exists.mp hI.2
  obtain ⟨sp', hsp', -⟩ := step_later hI.1.objects hI.1.calls (step_inv hs).2 hsp
  exact ⟨step_keeps_inv hI.1 hs, Option.isSome_iff_exists.mpr ⟨sp', hsp'⟩⟩

theorem step_childOr (hI : Exists c s) (d : Child JniCallback)
    (hs : machine.step s l = some (s', os)) :
    (childInput s c l = none ∧ s'.childOr c d = s.childOr c d ∧
      s.owed c = acts c os ++ s'.owed c) ∨
    ∃ i as, childInput s c l = some i ∧
      (Child.machine JniCallback).step (s.childOr c d) i = some (s'.childOr c d, as) ∧
      (acts c os).filterMap early? = as.filterMap early? ∧
      (apart c s l = true → s.owed c ++ as = acts c os ++ s'.owed c) := by
  obtain ⟨sp, hsp⟩ := Option.isSome_iff_exists.mp hI.2
  cases step_child hI.1 hsp (step_inv hs).2 with
  | still hnone ho howed => exact .inl ⟨hnone, (childOr_eq ho).trans (childOr_of hsp).symm, howed⟩
  | @moves i ch as hi hst ho hearly howed =>
      refine .inr ⟨i, as, hi, ?_, hearly, howed⟩
      rw [childOr_of hsp, childOr_eq ho]
      exact hst

/-- A native object goes as its child, and owes what its callback does after the method. -/
theorem child_lags (c : ObjId) (d : Child JniCallback) :
    machine.Lags (Child.machine JniCallback) (fun s l => apart c s l = true) (Exists c)
      (State.childOr · c d) (childInput · c) (Event.act? c) some (State.owed · c) := by
  refine ⟨fun hI _ hs => exists_keep hI hs, fun hI ha hs hj => ?_, fun hI _ hs hj => ?_⟩
  · rcases step_childOr hI d hs with ⟨hnone, -, -⟩ | ⟨i, as, hi, hst, -, howed⟩
    · rw [hnone] at hj
      cases hj
    · cases hi.symm.trans hj
      refine ⟨as, hst, ?_⟩
      rw [List.filterMap_some]
      exact howed ha
  · rcases step_childOr hI d hs with ⟨-, ho, howed⟩ | ⟨i, as, hi, -⟩
    · exact ⟨ho, howed⟩
    · rw [hi] at hj
      cases hj

/-- Without any condition, but for what comes after the method. -/
theorem child_lags_early (c : ObjId) (d : Child JniCallback) :
    machine.Lags (Child.machine JniCallback) (fun _ _ => True) (Exists c)
      (State.childOr · c d) (childInput · c) (Event.early? c) early? (fun _ => []) := by
  refine ⟨fun hI _ hs => exists_keep hI hs, fun hI _ hs hj => ?_, fun {s _ _ os} hI _ hs hj => ?_⟩
  · rcases step_childOr hI d hs with ⟨hnone, -, -⟩ | ⟨i, as, hi, hst, hearly, -⟩
    · rw [hnone] at hj
      cases hj
    · cases hi.symm.trans hj
      refine ⟨as, hst, ?_⟩
      rw [early_eq, hearly, List.append_nil]
      rfl
  · rcases step_childOr hI d hs with ⟨-, ho, howed⟩ | ⟨i, as, hi, -⟩
    · have hlate : ∀ a ∈ acts c os, isLate a = true := fun a ha =>
        owed_late (s := s) a (howed ▸ List.mem_append_left _ ha)
      rw [early_eq, late_early hlate]
      exact ⟨ho, rfl⟩
    · rw [hi] at hj
      cases hj

/-! ### Where a native object comes from -/

/-- What has not been made does nothing. -/
theorem step_absent (hnone : s.objs c = none) (hs : Step s l s' os) :
    acts c os = [] ∧ l.callback? c = none := by
  have other {c₁ : ObjId} {sp₁ : Spawn} (hsp₁ : s.objs c₁ = some sp₁) : c₁ ≠ c := by
    rintro rfl
    rw [hnone] at hsp₁
    cases hsp₁
  cases hs with
  | spawn _ _ hsp₁ | tail _ _ hsp₁ => exact ⟨acts_other (other hsp₁) _, rfl⟩
  | callback _ hsp₁ | callbackInvoke _ hsp₁ =>
      exact ⟨acts_other (other hsp₁) _, part_other rfl (other hsp₁)⟩
  | javaPut => split <;> exact ⟨rfl, rfl⟩
  | _ => exact ⟨rfl, rfl⟩

/-- `puppySpawn` makes it from what the `DoryProcess` holds. -/
theorem step_makes (v : Inv s) (hnone : s.objs c = none) (hs : Step s l s' os) {sp : Spawn}
    (hsp : s'.objs c = some sp) : os = [] ∧ s'.owed c = [] ∧
      ∃ t mem now call setup, l = .step t mem now ∧ s.calls t = some call ∧ call.pc = .create ∧
        (s.puppies call.puppy).setup mem uvLoop = some setup ∧
        sp = ⟨Child.start setup, call.puppy, .new⟩ := by
  have old {c₁ : ObjId} {sp₁ : Spawn} {x : Option Spawn} (hsp₁ : s.objs c₁ = some sp₁)
      (ho : s'.objs = update s.objs c₁ x) : s'.objs c = none := by
    have hne : c ≠ c₁ := by
      rintro rfl
      rw [hnone] at hsp₁
      cases hsp₁
    rw [ho, update_of_ne hne, hnone]
  cases hs with
  | @create t mem now call setup hcall hpc hsetup =>
      by_cases hc : c = s.next
      · subst hc
        dsimp only at hsp
        rw [update_self] at hsp
        cases hsp
        refine ⟨rfl, ?_, t, mem, now, call, setup, rfl, hcall, hpc, hsetup, rfl⟩
        cases hf : s.frame with
        | none => exact owed_none rfl
        | some f =>
            obtain ⟨sp₁, hsp₁, -⟩ := v.frames.obj f hf
            refine owed_other (f := f) rfl fun hfc => ?_
            rw [hfc, hnone] at hsp₁
            cases hsp₁
      · dsimp only at hsp
        rw [update_of_ne hc, hnone] at hsp
        cases hsp
  | nativePut _ _ hsp₁ | javaPut _ _ hsp₁ | spawn _ _ hsp₁ | callback _ hsp₁
  | callbackInvoke _ hsp₁ =>
      rw [old hsp₁ rfl] at hsp
      cases hsp
  | _ =>
      rw [show _ = none from hnone] at hsp
      cases hsp

section
variable {puppies : PuppyId → List (Option JString) × StringTable} {C : State → Label → Prop}
  {h : History Label Event}

theorem run_absent (r : machine.RunWhere C (.init puppies) h s) :
    s.objs c = none → acts c h.outputs = [] ∧ h.inputs.filterMap (Label.callback? c) = [] := by
  refine r.inv (fun h s => s.objs c = none →
    acts c h.outputs = [] ∧ h.inputs.filterMap (Label.callback? c) = [])
    (fun _ => ⟨rfl, rfl⟩) fun r _ hs ih hnone => ?_
  have hback := objs_none (run_inv r) (step_inv hs).2 hnone
  obtain ⟨hacts, hcb⟩ := step_absent hback (step_inv hs).2
  obtain ⟨ih₁, ih₂⟩ := ih hback
  exact ⟨by simp [ih₁, hacts], by simp [ih₂, hcb]⟩

/-- The native object `c` is made in the step `l`, after the run `h`, from what the `DoryProcess`
`p` holds then. -/
structure Origin (puppies : PuppyId → List (Option JString) × StringTable)
    (h : History Label Event) (s : State) (l : Label) (s' : State) (c : ObjId) (p : PuppyId)
    (setup : Setup JniCallback) : Prop where
  before : machine.Run (.init puppies) h s
  absent : s.objs c = none
  makes : machine.step s l = some (s', [])
  copied : ∃ mem, (s.puppies p).setup mem uvLoop = some setup
  made : s'.objs c = some ⟨Child.start setup, p, .new⟩

theorem Origin.exists {l : Label} {p : PuppyId} {setup : Setup JniCallback}
    (o : Origin puppies h s l s' c p setup) : Exists c s' :=
  ⟨step_keeps_inv (run_inv o.before) o.makes, by rw [o.made]; rfl⟩

theorem Origin.owed {l : Label} {p : PuppyId} {setup : Setup JniCallback}
    (o : Origin puppies h s l s' c p setup) : s'.owed c = [] :=
  (step_makes (run_inv o.before) o.absent (step_inv o.makes).2 o.made).2.1

/-- The run before it is the beginning of each run it is in. -/
theorem Origin.before_where {l : Label} {p : PuppyId} {setup : Setup JniCallback}
    {t : State} {k : History Label Event} (o : Origin puppies h s l s' c p setup)
    (r : machine.RunWhere C (.init puppies) (h ++ k) t) :
    machine.RunWhere C (.init puppies) h s := by
  obtain ⟨u, r₁, -⟩ := r.split
  obtain ⟨-, rfl⟩ := r₁.det o.before rfl
  exact r₁

/-- All that the object does and all its callbacks come later. -/
theorem Origin.later {l : Label} {p : PuppyId} {setup : Setup JniCallback}
    (o : Origin puppies h s l s' c p setup) (k : History Label Event) :
    acts c (h ++ (l, []) :: k).outputs = acts c k.outputs ∧
      (h ++ (l, []) :: k).inputs.filterMap (Label.callback? c) =
        k.inputs.filterMap (Label.callback? c) := by
  obtain ⟨hacts, hcb⟩ := run_absent o.before o.absent
  have hl := (step_absent o.absent (step_inv o.makes).2).2
  exact ⟨by simp [hacts], by simp [hcb, hl]⟩

/-- Every native object has been made in some step. -/
theorem run_origin (r : machine.RunWhere C (.init puppies) h s) :
    ∀ {sp : Spawn}, s.objs c = some sp → ∃ h₁ s₁ l s₂ setup h₂,
      h = h₁ ++ (l, []) :: h₂ ∧ Origin puppies h₁ s₁ l s₂ c sp.puppy setup ∧
      machine.RunWhere C s₂ h₂ s := by
  induction r with
  | nil => exact fun hsp => nomatch hsp
  | @snoc h s s' l os r hC hs ih =>
      intro sp' hsp'
      have v := run_inv r
      cases hsp : s.objs c with
      | none =>
          obtain ⟨rfl, -, t, mem, now, call, setup, -, -, -, hsetup, rfl⟩ :=
            step_makes v hsp (step_inv hs).2 hsp'
          exact ⟨h, s, l, s', setup, [], rfl, ⟨r.run, hsp, hs, ⟨mem, hsetup⟩, hsp'⟩, .nil⟩
      | some sp =>
          obtain ⟨h₁, s₁, l₁, s₂, setup, h₂, rfl, o, r₂⟩ := ih hsp
          obtain ⟨sp'', hsp'', hlater⟩ := step_later v.objects v.calls (step_inv hs).2 hsp
          cases hsp'.symm.trans hsp''
          exact ⟨h₁, s₁, l₁, s₂, setup, h₂ ++ [(l, os)], by simp, hlater.puppy ▸ o,
            r₂.snoc hC hs⟩

/-- From where it was made, the object is a run of the child it was made as. -/
theorem Origin.child {h₁ h₂ : History Label Event} {s₁ s₂ : State} {p : PuppyId}
    {setup : Setup JniCallback} (o : Origin puppies h₁ s₁ l s₂ c p setup)
    (r : machine.Run s₂ h₂ s) {sp : Spawn} (hsp : s.objs c = some sp) :
    ∃ k, (Child.machine JniCallback).Run (Child.start setup) k sp.child ∧
      k.inputs.filter Input.isCallback =
        (h₁ ++ (l, []) :: h₂).inputs.filterMap (Label.callback? c) ∧
      k.outputs.filterMap early? =
        (acts c (h₁ ++ (l, []) :: h₂).outputs).filterMap early? := by
  obtain ⟨hacts, hcb⟩ := o.later h₂
  obtain ⟨-, k, rk, hk, hin⟩ := (child_lags_early c sp.child).run (p := Input.isCallback)
    (q := Label.callback? c) (fun _ _ hs => childInput_callback (step_inv hs).2) o.exists r
  rw [childOr_of hsp, childOr_of o.made] at rk
  refine ⟨k, rk, by rw [hin, hcb], ?_⟩
  rw [hacts, ← early_eq, ← List.nil_append (k.outputs.filterMap early?), hk, List.append_nil]

/-- **What a native object does is a run of a child**, made with the functions that the native
`spawn` registers: in every run of the manager, with the callbacks it has in that run.  But for the
signals and the buffers, which come after the method of `DoryPuppy`, it does what it does there, in
that order. -/
theorem child_run (r : machine.Run (.init puppies) h s) {sp : Spawn} (hsp : s.objs c = some sp) :
    ∃ setup k, setup.listeners = jniListeners ∧
      (Child.machine JniCallback).Run (Child.start setup) k sp.child ∧
      k.inputs.filter Input.isCallback = h.inputs.filterMap (Label.callback? c) ∧
      k.outputs.filterMap early? = (acts c h.outputs).filterMap early? := by
  obtain ⟨h₁, s₁, l, s₂, setup, h₂, rfl, o, r₂⟩ := run_origin r hsp
  obtain ⟨k, rk, hin, hk⟩ := o.child r₂ hsp
  obtain ⟨mem, hsetup⟩ := o.copied
  exact ⟨setup, k, DoryProcess.setup_listeners hsetup, rk, hin, hk⟩

/-- `spawn()` goes on while the listener of stdout is looked for. -/
theorem child_run_example : ∃ h s sp setup k, machine.Run (.init examplePuppies) h s ∧
    s.objs 0 = some sp ∧
    (acts 0 h.outputs).drop 3 = [.invoke .stdout (.chunk [33] 1) 7, .uv (.readStart .pipeErr),
      .free] ∧
    (Child.machine JniCallback).Run (Child.start setup) k sp.child ∧
    k.outputs.filterMap early? = (acts 0 h.outputs).filterMap early? := by
  have r := Machine.exec_run (M := machine) (s := .init examplePuppies)
    ((spawnsWith (.caller 0) 0 7).dropLast ++ [.callback 0 (.stdoutCb 1 [33]),
      .spawn (.caller 0) (.readErr none), .jni 0, .jni 0]) rfl
  obtain ⟨setup, k, -, rk, -, hk⟩ := child_run (c := 0) r rfl
  exact ⟨_, _, _, setup, k, r, rfl, rfl, rk, hk⟩

/-- **With nothing late.**  When `spawn()` does not go on while a callback of the child is in a
method of `DoryPuppy`, all that the native object does is what that run of the child does, in that
order, but for what it owes. -/
theorem child_run_apart (r : machine.RunWhere (fun s l => apart c s l = true) (.init puppies) h s)
    {sp : Spawn} (hsp : s.objs c = some sp) :
    ∃ h₁ s₁ l s₂ setup h₂ k, h = h₁ ++ (l, []) :: h₂ ∧
      Origin puppies h₁ s₁ l s₂ c sp.puppy setup ∧
      (Child.machine JniCallback).Run (Child.start setup) k sp.child ∧
      k.inputs.filter Input.isCallback = h.inputs.filterMap (Label.callback? c) ∧
      k.outputs = acts c h.outputs ++ s.owed c := by
  obtain ⟨h₁, s₁, l, s₂, setup, h₂, rfl, o, r₂⟩ := run_origin r hsp
  obtain ⟨hacts, hcb⟩ := o.later h₂
  obtain ⟨-, k, rk, hk, hin⟩ := (child_lags c sp.child).run (p := Input.isCallback)
    (q := Label.callback? c) (fun _ _ hs => childInput_callback (step_inv hs).2) o.exists r₂
  rw [childOr_of hsp, childOr_of o.made] at rk
  rw [o.owed, List.nil_append, List.filterMap_some] at hk
  exact ⟨h₁, s₁, l, s₂, setup, h₂, k, rfl, o, rk, by rw [hin, hcb], by rw [hacts]; exact hk⟩

theorem child_run_apart_example : ∃ h s sp setup k,
    machine.RunWhere (fun s l => apart 0 s l = true) (.init examplePuppies) h s ∧
    s.objs 0 = some sp ∧ s.owed 0 = [.free] ∧
    (Child.machine JniCallback).Run (Child.start setup) k sp.child ∧
    k.outputs = acts 0 h.outputs ++ s.owed 0 := by
  have r := Machine.execWhere_run (M := machine) (C := fun s l => apart 0 s l)
    (s := .init examplePuppies)
    (startsWith (.caller 0) 0 7 ++ [.callback 0 (.stdoutCb 1 [33]), .jni 0]) rfl
  obtain ⟨_, _, _, _, setup, _, k, -, -, rk, -, hk⟩ := child_run_apart (c := 0) r rfl
  exact ⟨_, _, _, setup, k, r, rfl, rfl, rk, hk⟩

/-! ### What holds of a child holds in the manager -/

/-- The callbacks a child had. -/
def callbacks (c : ObjId) (is : List Label) : List Input := is.filterMap (Label.callback? c)

theorem any_callbacks {k : List Input} {q : Input → Bool}
    (hq : ∀ i, q i = true → i.isCallback = true) {is : List Label}
    (hk : k.filter Input.isCallback = callbacks c is) :
    (callbacks c is).any q = k.any q := by
  rw [← hk, List.any_filter]
  congr 1
  funext i
  cases hi : q i with
  | true => rw [hq i hi]; rfl
  | false => rw [Bool.and_false]

/-- **The exit is joined in the manager.**  In every run, the calls `emit("exit", …)` of a native
object are one with the status its `exit_cb` was given, from when that and the end of stderr have
both come, and none before. -/
theorem exits_joined (r : machine.Run (.init puppies) h s) {sp : Spawn}
    (hsp : s.objs c = some sp) :
    (acts c h.outputs).filterMap Act.exit? =
        (if (callbacks c h.inputs).any Input.endsErr
          then (callbacks c h.inputs).filterMap Input.exitStatus? else []) ∧
      ((callbacks c h.inputs).filterMap Input.exitStatus?).length ≤ 1 := by
  obtain ⟨h₁, s₁, l, s₂, setup, h₂, e, o, r₂⟩ := run_origin r hsp
  obtain ⟨k, rk, hin, hk⟩ := o.child r₂ hsp
  rw [← e] at hin hk
  have hlate : ∀ a : Act JniCallback, isLate a = true → a.exit? = none := by
    intro a ha
    cases a <;> first | rfl | cases ha
  have hstatus : (callbacks c h.inputs).filterMap Input.exitStatus? =
      k.inputs.filterMap Input.exitStatus? := by
    rw [callbacks, ← hin, List.filterMap_filter]
    congr 1
    funext i
    cases i <;> rfl
  have he := any_callbacks (q := Input.endsErr)
    (fun i hi => by cases i <;> first | rfl | cases hi) hin
  rw [← early_filterMap hlate, ← hk, early_filterMap hlate, Child.run_exit rk, he, hstatus]
  refine ⟨rfl, ?_⟩
  rw [Child.exitStatus_length, Child.exits_once rk]
  exact Bool.toNat_le _

theorem exits_joined_example : ∃ h s sp, machine.Run (.init examplePuppies) h s ∧
    s.objs 0 = some sp ∧ (acts 0 h.outputs).filterMap Act.exit? = [(0, 0)] := by
  have r := Machine.exec_run (M := machine) (s := .init examplePuppies)
    (startsWith (.caller 0) 0 7 ++ exits 0) rfl
  exact ⟨_, _, _, r, rfl, (exits_joined (c := 0) r rfl).1⟩

end

end Dorypuppy.Manager

import Dorypuppy.Support.Product
import Dorypuppy.Manager.Atomic
import Dorypuppy.Manager.Registry

/-!
# Manager — different children do not disturb each other

The callbacks of children with different pids and different `DoryProcess` objects, and the calls of
`puppySpawn` that register further ones, each as one step (`Children.machine`).

What a step of one child reads and writes is what a child has of the state: its native object, its
entries in the two maps, its `DoryProcess`, and whether its pid is free (`View`).  So the machine is
made of one machine for each child (`Children.parts`), and the order of steps of different children
makes no difference (`children_independent`).
-/

namespace Dorypuppy.Manager

open Child (Reached)
open Support (Machine History Parts)
open Function (update update_self update_of_ne)

variable {κ : Type}

/-- Children with different pids and different `DoryProcess` objects. -/
structure Children (κ : Type) where
  pid : κ → Pid
  puppy : κ → PuppyId
  pid_inj : Function.Injective pid
  puppy_inj : Function.Injective puppy

/-- A callback of the native object, or the call of `puppySpawn` by the thread `n` that makes it. -/
inductive Deed where
  | event (i : Input)
  | register (n : Nat) (mem : Uninit) (is : List Input)

/-- A state, with the native objects of the children that are registered. -/
structure Named (κ : Type) where
  state : State
  obj : κ → Option ObjId

/-- What the listeners of a `DoryProcess` are called with. -/
abbrev Heard := Listener × JniCallback × Int × JArgs

def Event.heardBy (p : PuppyId) : Event → Option Heard
  | .listener p' l k pid args _ => if p' = p then some (l, k, pid, args) else none
  | _ => none

/-- Each child is registered once. -/
def Children.step [DecidableEq κ] (C : Children κ) (a : Named κ) :
    κ × Deed × Date → Option (Named κ × List Event)
  | (k, .event i, now) =>
      (a.obj k).bind fun c =>
        (a.state.event c i now).map fun r => ({ a with state := r.2 }, r.1.outputs)
  | (k, .register n mem is, now) =>
      if a.obj k = none then
        (a.state.register n (C.puppy k) (C.pid k) mem is now).map fun r =>
          (⟨r.2, update a.obj k (some a.state.next)⟩, r.1.outputs)
      else none

/-- The children, with their callbacks and registrations one after the other. -/
def Children.machine [DecidableEq κ] (C : Children κ) : Machine (Named κ) (κ × Deed × Date) Event :=
  ⟨C.step⟩

/-! ### What a child has of the state -/

/-- The object without the time of its exit. -/
def undated (p : DoryProcess) : DoryProcess := { p with exitedAt := p.exitedAt.map fun _ => 0 }

@[ext] structure View where
  child : Option (Child JniCallback)
  native : Option (Option (DoryProcessSpawn JniCallback))
  java : Option PuppyId
  puppy : DoryProcess
  free : Bool

/-- The copy in the native `processList`. -/
def State.nativeCopy (s : State) (q : Int) : Option (Option (DoryProcessSpawn JniCallback)) :=
  (s.nativeList q).map (Option.map NativeEntry.copy)

/-- The object in `DoryPuppy.processList`. -/
def State.javaPuppy (s : State) (q : Int) : Option PuppyId := (s.javaList q).map JavaEntry.puppy

def Children.view (C : Children κ) (k : κ) (a : Named κ) : View where
  child := (a.obj k).bind fun c => (a.state.objs c).map Spawn.child
  native := a.state.nativeCopy (C.pid k)
  java := a.state.javaPuppy (C.pid k)
  puppy := undated (a.state.puppies (C.puppy k))
  free := a.state.os (C.pid k) = none

namespace View

/-- The listener a method calls. -/
def heard (v : View) (k : JniCallback) (pid : Int) (args : JArgs) : List Heard :=
  match v.java with
  | none => []
  | some _ => ((v.puppy.listenerOf k).map fun l => (l, k, pid, args)).toList

/-- What a method leaves. -/
def after (v : View) (k : JniCallback) (args : JArgs) : View :=
  if k = .exit then
    { v with
      native := none
      java := none
      puppy :=
        match v.java, args with
        | some _, .status code signal => exitWrites v.puppy code signal 0
        | _, _ => v.puppy }
  else v

def event (v : View) (i : Input) : Option (View × List Heard) :=
  match v.child with
  | none => none
  | some ch =>
      match ch.callbackHead i with
      | none => none
      | some (ch', _) =>
          let v' := { v with child := some ch', free := v.free || i.exits }
          match raised ch.obj i with
          | none => some (v', [])
          | some (k, args) => some (v'.after k (jniArgs args), v.heard k ch.obj.pid (jniArgs args))

def register (v : View) (p : PuppyId) (q : Int) (mem : Uninit) (is : List Input) :
    Option (View × List Heard) :=
  if v.child.isSome then none
  else
    match spawned v.puppy mem q v.free is with
    | none => none
    | some (ch, free) =>
        some ({ v with
          child := some ch
          native := some (some ch.obj)
          java := some p
          free := free }, [])

end View

/-- One child by itself. -/
def Children.one (C : Children κ) (k : κ) : Machine View Deed Heard where
  step v
    | .event i => v.event i
    | .register _ mem is => v.register (C.puppy k) (C.pid k) mem is

/-! ### What a step of one child does -/

/-- A child that is registered has its native object, and an entry under its pid is its own. -/
def Children.Held (C : Children κ) (k : κ) (a : Named κ) : Prop :=
  ∀ c, a.obj k = some c → ∃ sp, a.state.objs c = some sp ∧ sp.child.pc = .returned 0 ∧
    sp.child.obj.process.pid = C.pid k ∧
    ∀ e, a.state.javaList (C.pid k) = some e → e.puppy = C.puppy k

/-- Nothing is under way, and each child has its native object. -/
structure Children.Ready (C : Children κ) (a : Named κ) : Prop where
  inv : Inv a.state
  calls : ∀ t, a.state.calls t = none
  frame : a.state.frame = none
  held : ∀ k, C.Held k a

/-- The state of no other child is changed. -/
structure Children.Confined (C : Children κ) (k : κ) (a a' : Named κ) (os : List Event) : Prop where
  obj : ∀ k' ≠ k, a'.obj k' = a.obj k'
  objs : ∀ k' ≠ k, ∀ c, a.obj k' = some c → a'.state.objs c = a.state.objs c
  native : ∀ q ≠ (C.pid k : Int), a'.state.nativeList q = a.state.nativeList q
  java : ∀ q ≠ (C.pid k : Int), a'.state.javaList q = a.state.javaList q
  free : ∀ q ≠ (C.pid k : Int), a'.state.os q = a.state.os q
  puppies : ∀ p ≠ C.puppy k, a'.state.puppies p = a.state.puppies p
  heard : ∀ p ≠ C.puppy k, os.filterMap (Event.heardBy p) = []

/-- A step of the child `k`, which has `v` after it and hears `hs`. -/
structure Children.Effect (C : Children κ) (k : κ) (a a' : Named κ) (os : List Event) (v : View)
    (hs : List Heard) : Prop where
  calls : ∀ t, a'.state.calls t = none
  frame : a'.state.frame = none
  held : C.Held k a'
  confined : C.Confined k a a' os
  view : C.view k a' = v
  heard : os.filterMap (Event.heardBy (C.puppy k)) = hs

theorem filterMap_heardBy (p : PuppyId) (os : List Event) :
    os.filterMap (Event.heardBy p) = (os.filter Event.isListener).filterMap (Event.heardBy p) := by
  rw [List.filterMap_filter]
  congr 1
  funext e
  cases e <;> rfl

theorem Children.Ready.crashed {C : Children κ} {a : Named κ} (ok : C.Ready a) :
    a.state.crashed = false := by
  by_contra h
  obtain ⟨t, call, hc, -⟩ := ok.inv.entries.crash (by simpa using h)
  rw [ok.calls t] at hc
  cases hc

theorem Children.pid_ne (C : Children κ) {k k' : κ} (h : k' ≠ k) : (C.pid k' : Int) ≠ C.pid k :=
  fun e => h (C.pid_inj (Subtype.ext e))

/-- Two children have two native objects. -/
theorem Children.Ready.obj_ne {C : Children κ} {a : Named κ} (ok : C.Ready a) {k k' : κ}
    {c c' : ObjId} (h : k' ≠ k) (hc : a.obj k = some c) (hc' : a.obj k' = some c') : c' ≠ c := by
  rintro rfl
  obtain ⟨sp, hsp, -, hp, -⟩ := ok.held k c' hc
  obtain ⟨sp', hsp', -, hp', -⟩ := ok.held k' c' hc'
  cases hsp.symm.trans hsp'
  exact C.pid_ne h (hp'.symm.trans hp)

section Effect
variable {C : Children κ} {a a' : Named κ} {k : κ} {os : List Event} {v : View} {hs : List Heard}

/-- What the other children have of the state stays. -/
theorem Children.Effect.stays (e : C.Effect k a a' os v hs)
    {k' : κ} (hk : k' ≠ k) : C.view k' a' = C.view k' a := by
  have hq := C.pid_ne hk
  ext1
  · simp only [Children.view, e.confined.obj k' hk]
    cases hobj : a.obj k' with
    | none => rfl
    | some c => simp only [Option.bind_some, e.confined.objs k' hk c hobj]
  · simp only [Children.view, State.nativeCopy, e.confined.native _ hq]
  · simp only [Children.view, State.javaPuppy, e.confined.java _ hq]
  · simp only [Children.view, e.confined.puppies _ fun h => hk (C.puppy_inj h)]
  · simp only [Children.view, e.confined.free _ hq]

theorem Children.Effect.ready (ok : C.Ready a)
    (e : C.Effect k a a' os v hs) (inv : Inv a'.state) : C.Ready a' := by
  refine ⟨inv, e.calls, e.frame, fun k' => ?_⟩
  by_cases hk : k' = k
  · exact hk ▸ e.held
  · intro c hc
    rw [e.confined.obj k' hk] at hc
    obtain ⟨sp, hsp, hpc, hpid, hjava⟩ := ok.held k' c hc
    refine ⟨sp, (e.confined.objs k' hk c hc).trans hsp, hpc, hpid, fun e' he' => hjava e' ?_⟩
    rw [← he', e.confined.java _ (C.pid_ne hk)]

end Effect

section Event
variable {C : Children κ} {a : Named κ} {k : κ} {c : ObjId} {sp : Spawn} {i : Input}
  {ch : Child JniCallback} {as : List (Act JniCallback)}

/-- A callback of a child changes its native object, and of the maps and the `DoryProcess` objects
what is the child's. -/
theorem callback_effect (ok : C.Ready a) (hobj : a.obj k = some c) (hsp : a.state.objs c = some sp)
    (hst : sp.child.callbackHead i = some (ch, as)) {os : List Event} {v : View} {hs : List Heard}
    {puppies : PuppyId → DoryProcess} {javaList : Int → Option JavaEntry}
    {nativeList : Int → Option (Option NativeEntry)}
    (hpuppies : ∀ p ≠ C.puppy k, puppies p = a.state.puppies p)
    (hjava : ∀ q ≠ (C.pid k : Int), javaList q = a.state.javaList q)
    (hown : ∀ e, javaList (C.pid k) = some e → a.state.javaList (C.pid k) = some e)
    (hnative : ∀ q ≠ (C.pid k : Int), nativeList q = a.state.nativeList q)
    (helse : ∀ p ≠ C.puppy k, os.filterMap (Event.heardBy p) = [])
    (hheard : os.filterMap (Event.heardBy (C.puppy k)) = hs)
    (hview : v = {
      child := some ch
      native := (nativeList (C.pid k)).map (Option.map NativeEntry.copy)
      java := (javaList (C.pid k)).map JavaEntry.puppy
      puppy := undated (puppies (C.puppy k))
      free := (C.view k a).free || i.exits }) :
    C.Effect k a { a with state := { a.state.withChild c sp i ch with
      puppies := puppies
      javaList := javaList
      nativeList := nativeList
      frame := none } } os v hs := by
  obtain ⟨sp', hsp', hpc, hpid, hput⟩ := ok.held k c hobj
  cases hsp.symm.trans hsp'
  have hstep := Child.callbackHead_step hst
  obtain ⟨hr, -⟩ := ok.inv.objects.reached c sp hsp
  have hos (q : Int) : (a.state.withChild c sp i ch).os q =
      if i.exits ∧ q = C.pid k then none else a.state.os q := by
    rw [← hpid]
    exact pidsAfter_callback hst q
  refine ⟨ok.calls, rfl, ?_, ⟨fun _ _ => rfl, ?_, hnative, hjava, ?_, hpuppies, helse⟩, ?_, hheard⟩
  · intro c' hc'
    cases hobj.symm.trans hc'
    refine ⟨{ sp with child := ch }, update_self .., ?_, ?_, fun e he => hput e (hown e he)⟩
    · exact (Child.step_keeps hstep).1 0 hpc
    · exact (hr.born_step hstep (hr.started hpc).1).2.trans hpid
  · intro k' hk' c' hc'
    exact update_of_ne (ok.obj_ne hk' hobj hc') _ _
  · intro q hq
    rw [hos, if_neg fun h => hq h.2]
  · subst hview
    ext1
    · simp [Children.view, hobj, State.withChild]
    · rfl
    · rfl
    · rfl
    · simp only [Children.view, hos]
      cases hx : i.exits <;> simp

@[simp] theorem undated_listenerOf (p : DoryProcess) (m : JniCallback) :
    (undated p).listenerOf m = p.listenerOf m := by
  cases m <;> rfl

/-- Only the `DoryProcess` of the child hears of a callback. -/
theorem event_heard (ok : C.Ready a) (hobj : a.obj k = some c) (hsp : a.state.objs c = some sp)
    (hpid : sp.child.obj.pid = C.pid k) (now : Date) (p : PuppyId) :
    (a.state.afterEvent c sp i ch now).2.filterMap (Event.heardBy p) =
      if p = C.puppy k then
        match raised sp.child.obj i with
        | none => []
        | some (m, args) => (C.view k a).heard m sp.child.obj.pid (jniArgs args)
      else [] := by
  obtain ⟨sp', hsp', -, -, hjava⟩ := ok.held k c hobj
  cases hsp.symm.trans hsp'
  simp only [State.afterEvent]
  cases raised sp.child.obj i with
  | none => simp
  | some x =>
      obtain ⟨m, args⟩ := x
      simp only [State.heard, View.heard, Children.view, State.javaPuppy, State.withChild, hpid,
        undated_listenerOf]
      cases he : a.state.javaList (C.pid k) with
      | none => simp
      | some e =>
          simp only [hjava e he, Option.map_some]
          cases (a.state.puppies (C.puppy k)).listenerOf m with
          | none => simp
          | some l => by_cases hp : p = C.puppy k <;> simp [Event.heardBy, hp, eq_comm]

end Event

theorem event_effect [DecidableEq κ] {C : Children κ} {a : Named κ} (ok : C.Ready a) (k : κ)
    (i : Input) (now : Date) :
    match (C.view k a).event i with
    | none => C.step a (k, .event i, now) = none
    | some (v, hs) => ∃ a' os, C.step a (k, .event i, now) = some (a', os) ∧
        C.Effect k a a' os v hs := by
  cases hobj : a.obj k with
  | none => simp [Children.view, View.event, Children.step, hobj]
  | some c =>
      obtain ⟨sp, hsp, hpc, hpid, hjava⟩ := ok.held k c hobj
      obtain ⟨hr, hl⟩ := ok.inv.objects.reached c sp hsp
      have hstored : sp.child.obj.pid = C.pid k := (hr.started hpc).2.trans hpid
      have h := event_eq i now ok.crashed (ok.calls .loop) ok.frame hsp hl
      have hchild : (C.view k a).child = some sp.child := by
        simp [Children.view, hobj, hsp]
      simp only [View.event, hchild, Children.step, hobj, Option.bind_some]
      cases hst : sp.child.callbackHead i with
      | none =>
          rw [hst] at h
          simp only [h, Option.map_none]
      | some x =>
          obtain ⟨ch, as⟩ := x
          rw [hst] at h
          obtain ⟨h, hev, hout⟩ := h
          have hfor (p : PuppyId) := (filterMap_heardBy p h.outputs).trans
            ((congrArg _ hout).trans (event_heard ok hobj hsp hstored now p))
          have helse : ∀ p ≠ C.puppy k, h.outputs.filterMap (Event.heardBy p) = [] := by
            intro p hp
            rw [hfor, if_neg hp]
          have hheard := (hfor (C.puppy k)).trans (if_pos rfl)
          by_cases hexit : ∃ args, raised sp.child.obj i = some (.exit, args)
          · obtain ⟨args, hraised⟩ := hexit
            obtain ⟨code, signal, rfl⟩ := raised_exit hraised
            simp only [hev, Option.map_some, hraised] at hheard ⊢
            refine ⟨_, _, rfl, ?_⟩
            rw [afterEvent_exit hraised, hstored]
            refine callback_effect ok hobj hsp hst ?_ (fun q hq => update_of_ne hq _ _) ?_
              (fun q hq => update_of_ne hq _ _) helse (hstored ▸ hheard) ?_
            · intro p hp
              cases he : a.state.javaList (C.pid k) with
              | none => rfl
              | some e => exact update_of_ne (fun h => hp (h.trans (hjava e he))) _ _
            · intro e he
              rw [update_self] at he
              cases he
            · rw [update_self, update_self]
              simp only [View.after, if_true, jniArgs, Children.view, State.javaPuppy]
              cases he : a.state.javaList (C.pid k) with
              | none => rfl
              | some e =>
                  simp only [hjava e he, update_self]
                  rfl
          · have hquiet : (a.state.afterEvent c sp i ch now).1 = _ :=
              afterEvent_quiet ok.frame fun args h => hexit ⟨args, h⟩
            simp only [hev, Option.map_some, hquiet]
            have heffect {hs : List Heard}
                (hheard : h.outputs.filterMap (Event.heardBy (C.puppy k)) = hs) :=
              callback_effect ok hobj hsp hst (fun _ _ => rfl)
                (fun _ _ => rfl) (fun _ h => h) (fun _ _ => rfl) helse hheard rfl
            cases hraised : raised sp.child.obj i with
            | none =>
                rw [hraised] at hheard
                exact ⟨_, _, rfl, heffect hheard⟩
            | some x =>
                obtain ⟨m, args⟩ := x
                rw [hraised] at hheard
                have hm : m ≠ .exit := by
                  rintro rfl
                  exact hexit ⟨args, hraised⟩
                simp only [View.after, if_neg hm]
                exact ⟨_, _, rfl, heffect hheard⟩

theorem Children.Ready.child_none {C : Children κ} {a : Named κ} (ok : C.Ready a) (k : κ) :
    (C.view k a).child = none ↔ a.obj k = none := by
  cases hobj : a.obj k with
  | none => simp [Children.view, hobj]
  | some c =>
      obtain ⟨sp, hsp, -⟩ := ok.held k c hobj
      simp [Children.view, hobj, hsp]

theorem registers_effect [DecidableEq κ] {C : Children κ} {a : Named κ} {k : κ} {s' : State}
    {ch : Child JniCallback} {free : Bool} {os : List Event} (ok : C.Ready a)
    (hr : Registers a.state s' (C.puppy k) (C.pid k) ch free) (hpc : ch.pc = .returned 0)
    (hpid : ch.obj.process.pid = C.pid k)
    (heard : ∀ p, os.filterMap (Event.heardBy p) = []) :
    C.Effect k a ⟨s', update a.obj k (some a.state.next)⟩ os
      { C.view k a with
        child := some ch
        native := some (some ch.obj)
        java := some (C.puppy k)
        free := free } [] := by
  obtain ⟨heq, hfree, hother⟩ := hr
  have hobjs : s'.objs = update a.state.objs a.state.next (some ⟨ch, C.puppy k, .java⟩) := by
    rw [heq]
  have hnative : s'.nativeList =
      update a.state.nativeList (C.pid k) (some (some ⟨ch.obj, a.state.next⟩)) := by
    rw [heq]
  have hjava : s'.javaList =
      update a.state.javaList (C.pid k) (some ⟨C.puppy k, a.state.next⟩) := by
    rw [heq]
  have hpuppies : s'.puppies = a.state.puppies := by rw [heq]
  refine ⟨?_, ?_, ?_, ⟨?_, ?_, ?_, ?_, hother, ?_, fun p _ => heard p⟩, ?_, heard _⟩
  · rw [heq]
    exact ok.calls
  · rw [heq]
    exact ok.frame
  · intro c hc
    obtain rfl : a.state.next = c := by simpa using hc
    refine ⟨⟨ch, C.puppy k, .java⟩, ?_, hpc, hpid, fun e he => ?_⟩
    · exact (congrFun hobjs _).trans (update_self ..)
    · simp only [hjava, update_self] at he
      cases he
      rfl
  · intro k' hk'
    exact update_of_ne hk' _ _
  · intro k' hk' c hc
    obtain ⟨sp, hsp, -⟩ := ok.held k' c hc
    exact (congrFun hobjs c).trans (update_of_ne (ok.inv.objects.lt hsp).ne _ _)
  · intro q hq
    exact (congrFun hnative q).trans (update_of_ne hq _ _)
  · intro q hq
    exact (congrFun hjava q).trans (update_of_ne hq _ _)
  · exact fun p _ => congrFun hpuppies p
  · ext1
    · simp [Children.view, hobjs]
    · simp [Children.view, State.nativeCopy, hnative]
    · simp [Children.view, State.javaPuppy, hjava]
    · simp only [Children.view, hpuppies]
    · simp only [Children.view, hfree, Bool.decide_eq_true]

theorem register_effect [DecidableEq κ] {C : Children κ} {a : Named κ} (ok : C.Ready a) (k : κ)
    (n : Nat) (mem : Uninit) (is : List Input) (now : Date) :
    match (C.view k a).register (C.puppy k) (C.pid k) mem is with
    | none => C.step a (k, .register n mem is, now) = none
    | some (v, hs) => ∃ a' os, C.step a (k, .register n mem is, now) = some (a', os) ∧
        C.Effect k a a' os v hs := by
  by_cases hobj : a.obj k = none
  · have hchild := (ok.child_none k).mpr hobj
    have h := register_eq n (C.puppy k) mem is now ok.crashed (ok.calls _) (C.pid k).2
    have hsame : spawned (C.view k a).puppy mem (C.pid k) (C.view k a).free is =
        spawned (a.state.puppies (C.puppy k)) mem (C.pid k) (a.state.os (C.pid k) = none) is := rfl
    simp only [View.register, hchild, Option.isSome_none, Bool.false_eq_true, if_false,
      Children.step, if_pos hobj, hsame]
    cases hspawned : spawned (a.state.puppies (C.puppy k)) mem (C.pid k)
      (a.state.os (C.pid k) = none) is with
    | none =>
        rw [hspawned] at h
        simp only [h, Option.map_none]
    | some x =>
        obtain ⟨ch, free⟩ := x
        rw [hspawned] at h
        obtain ⟨h, s', hreg, hout, heq, hfree, hother⟩ := h
        simp only [hreg, Option.map_some]
        obtain ⟨hpc, hpid⟩ := spawned_started hspawned
        have heard (p : PuppyId) : h.outputs.filterMap (Event.heardBy p) = [] := by
          rw [filterMap_heardBy, hout]
          rfl
        exact ⟨_, _, rfl, registers_effect ok ⟨heq, hfree, hother⟩ hpc hpid heard⟩
  · have hchild : (C.view k a).child.isSome := by
      rw [Option.isSome_iff_ne_none]
      exact fun h => hobj ((ok.child_none k).mp h)
    simp only [View.register, hchild, if_true, Children.step, if_neg hobj]

/-! ### One machine for each child -/

section Parts
variable [DecidableEq κ] {C : Children κ} {a a' : Named κ} {x : κ × Deed × Date} {os : List Event}
  {h : History (κ × Deed × Date) Event}

/-- A step is a run of the manager, with the same outputs. -/
theorem step_run (hs : C.step a x = some (a', os)) :
    ∃ h, machine.Run a.state h a'.state ∧ h.outputs = os := by
  obtain ⟨k, d, now⟩ := x
  cases d with
  | event i =>
      obtain ⟨c, -, hc⟩ := Option.bind_eq_some_iff.mp hs
      obtain ⟨⟨h, t⟩, hev, hr⟩ := Option.map_eq_some_iff.mp hc
      cases hr
      exact ⟨h, (event_run hev).1, rfl⟩
  | register n mem is =>
      simp only [Children.step, Option.ite_none_right_eq_some] at hs
      obtain ⟨⟨h, t⟩, hreg, hr⟩ := Option.map_eq_some_iff.mp hs.2
      cases hr
      exact ⟨h, register_run hreg, rfl⟩

theorem atomic_run (r : C.machine.Run a h a') :
    ∃ h', machine.Run a.state h' a'.state ∧ h'.outputs = h.outputs := by
  induction r with
  | nil => exact ⟨[], .nil, rfl⟩
  | snoc _ _ hs ih =>
      obtain ⟨h', r', ho⟩ := ih
      obtain ⟨k, r, hk⟩ := step_run hs
      exact ⟨h' ++ k, r'.trans r, by simp [ho, hk]⟩

theorem step_effect (ok : C.Ready a) (k : κ) (d : Deed) (now : Date) :
    match (C.one k).step (C.view k a) d with
    | none => C.step a (k, d, now) = none
    | some (v, hs) => ∃ a' os, C.step a (k, d, now) = some (a', os) ∧ C.Effect k a a' os v hs := by
  cases d with
  | event i => exact event_effect ok k i now
  | register n mem is => exact register_effect ok k n mem is now

/-- A step that takes place is the step of its child. -/
theorem effect_of_step (ok : C.Ready a) (hs : C.step a x = some (a', os)) :
    ∃ v hs, (C.one x.1).step (C.view x.1 a) x.2.1 = some (v, hs) ∧ C.Effect x.1 a a' os v hs := by
  obtain ⟨k, d, now⟩ := x
  have h := step_effect ok k d now
  cases hone : (C.one k).step (C.view k a) d with
  | none =>
      rw [hone] at h
      cases hs.symm.trans h
  | some y =>
      obtain ⟨v, hs'⟩ := y
      rw [hone] at h
      obtain ⟨a₁, os₁, h₁, e⟩ := h
      cases hs.symm.trans h₁
      exact ⟨v, hs', rfl, e⟩

/-- **The children are the parts of the machine.** -/
def Children.parts (C : Children κ) : Parts C.machine C.one where
  I := C.Ready
  key x := x.1
  act x := x.2.1
  view := C.view
  out k := Event.heardBy (C.puppy k)
  keep := by
    intro a x a' os ok hs
    obtain ⟨v, hs', -, e⟩ := effect_of_step ok hs
    obtain ⟨h, r, -⟩ := step_run hs
    refine e.ready ok (r.inv (fun _ s => Inv s) ok.inv ?_)
    exact fun _ _ hs v => step_keeps_inv v hs
  moves := by
    intro a x a' os ok hs
    obtain ⟨v, hs', hone, e⟩ := effect_of_step ok hs
    rw [hone, e.view, e.heard]
  stays := by
    intro a x a' os k ok hs hk
    obtain ⟨v, hs', -, e⟩ := effect_of_step ok hs
    exact ⟨e.stays hk, e.confined.heard _ fun h => hk (C.puppy_inj h)⟩
  goes := by
    rintro a ⟨k, d, now⟩ ok hone
    have h := step_effect ok k d now
    obtain ⟨⟨v, hs⟩, hone⟩ := Option.isSome_iff_exists.mp hone
    rw [hone] at h
    obtain ⟨a', os, h, -⟩ := h
    exact Option.isSome_of_eq_some h

/-- What belongs to no child of the family stays. -/
theorem run_rest (ok : C.Ready a) (r : C.machine.Run a h a') :
    (∀ q, (∀ k, q ≠ (C.pid k : Int)) → a'.state.nativeList q = a.state.nativeList q ∧
      a'.state.javaList q = a.state.javaList q) ∧
    ∀ p, (∀ k, p ≠ C.puppy k) → a'.state.puppies p = a.state.puppies p ∧
      h.outputs.filterMap (Event.heardBy p) = [] := by
  induction r with
  | nil => exact ⟨fun _ _ => ⟨rfl, rfl⟩, fun _ _ => ⟨rfl, rfl⟩⟩
  | @snoc h b b' x os r _ hs ih =>
      obtain ⟨v, hs', -, e⟩ := effect_of_step (C.parts.run_part ok r).1 hs
      obtain ⟨hmaps, hpuppies⟩ := ih
      refine ⟨fun q hq => ?_, fun p hp => ?_⟩
      · obtain ⟨hn, hj⟩ := hmaps q hq
        exact ⟨(e.confined.native q (hq _)).trans hn, (e.confined.java q (hq _)).trans hj⟩
      · obtain ⟨hpup, hh⟩ := hpuppies p hp
        refine ⟨(e.confined.puppies p (hp _)).trans hpup, ?_⟩
        rw [History.outputs_append, List.filterMap_append, hh, List.nil_append,
          History.outputs_cons, History.outputs_nil, List.append_nil]
        exact e.confined.heard p (hp _)

end Parts

/-! ### Two orders -/

/-- A child that is registered: its native object is in the native map, and its `DoryProcess` in the
other one. -/
structure Children.Registered (C : Children κ) (s : State) (k : κ) (c : ObjId) : Prop where
  native : ∃ copy, s.nativeList (C.pid k) = some (some ⟨copy, c⟩)
  java : s.javaList (C.pid k) = some ⟨C.puppy k, c⟩

/-- What a child does, in its order. -/
def deeds [DecidableEq κ] (k : κ) (is : List (κ × Deed × Date)) : List Deed :=
  (is.filter (·.1 = k)).map (·.2.1)

/-- Two runs end with the same maps, the same exits, and the same calls of listeners. -/
structure SameEnd (s s' : State) (os os' : List Event) : Prop where
  native : ∀ q, s.nativeCopy q = s'.nativeCopy q
  java : ∀ q, s.javaPuppy q = s'.javaPuppy q
  exit : ∀ p, (s.puppies p).code = (s'.puppies p).code ∧
    (s.puppies p).signal = (s'.puppies p).signal ∧
    (s.puppies p).exitedAt.isSome = (s'.puppies p).exitedAt.isSome
  heard : ∀ p, os.filterMap (Event.heardBy p) = os'.filterMap (Event.heardBy p)

theorem exit_of_undated {p p' : DoryProcess} (h : undated p = undated p') :
    p.code = p'.code ∧ p.signal = p'.signal ∧ p.exitedAt.isSome = p'.exitedAt.isSome := by
  have hcode := congrArg DoryProcess.code h
  have hsignal := congrArg DoryProcess.signal h
  have hexited := congrArg (fun p => p.exitedAt.isSome) h
  exact ⟨hcode, hsignal, by simpa [undated] using hexited⟩

theorem ready_of_registered {C : Children κ} {a : Named κ} (v : Inv a.state)
    (hquiet : a.state.Quiescent)
    (hreg : ∀ k c, a.obj k = some c → C.Registered a.state k c) : C.Ready a := by
  refine ⟨v, hquiet.1, hquiet.2, fun k c hc => ?_⟩
  have g := hreg k c hc
  obtain ⟨sp, hsp, hst, -, -, hpid⟩ := v.entries.java _ _ g.java
  refine ⟨sp, hsp, v.calls.put c sp hsp (by rw [hst]; decide), hpid, fun e he => ?_⟩
  cases g.java.symm.trans he
  rfl

/-- **Different children do not disturb each other.**  From every reached state in which no thread
is inside a call and no callback is running: if the callbacks and the registrations of the children
take place in one order, they do in every order that keeps that of each child, and all these runs
end with the same maps, the same code, signal and exited status of every `DoryProcess`, and the
same calls of its listeners. -/
theorem children_independent [DecidableEq κ] {C : Children κ}
    {puppies : PuppyId → List (Option JString) × StringTable} {h₀ : History Label Event}
    {a₀ a : Named κ} {h : History (κ × Deed × Date) Event}
    (r₀ : machine.Run (.init puppies) h₀ a₀.state) (hquiet : a₀.state.Quiescent)
    (hreg : ∀ k c, a₀.obj k = some c → C.Registered a₀.state k c)
    (r : C.machine.Run a₀ h a) {is : List (κ × Deed × Date)}
    (hsame : ∀ k, deeds k h.inputs = deeds k is) :
    (∃ h' a', C.machine.Run a₀ h' a' ∧ h'.inputs = is) ∧
      ∀ h' a', C.machine.Run a₀ h' a' → h'.inputs = is →
        SameEnd a.state a'.state h.outputs h'.outputs := by
  have ok := ready_of_registered (run_inv r₀) hquiet hreg
  refine ⟨C.parts.goes_on ok r hsame, ?_⟩
  rintro h' a' r' rfl
  have hagree := C.parts.agree ok r r' hsame
  have hview (k : κ) : C.view k a = C.view k a' := (hagree k).1
  obtain ⟨hmaps, hpuppies⟩ := run_rest ok r
  obtain ⟨hmaps', hpuppies'⟩ := run_rest ok r'
  constructor
  · intro q
    by_cases hq : ∃ k, q = (C.pid k : Int)
    · obtain ⟨k, rfl⟩ := hq
      exact congrArg View.native (hview k)
    · rw [not_exists] at hq
      simp only [State.nativeCopy, (hmaps q hq).1, (hmaps' q hq).1]
  · intro q
    by_cases hq : ∃ k, q = (C.pid k : Int)
    · obtain ⟨k, rfl⟩ := hq
      exact congrArg View.java (hview k)
    · rw [not_exists] at hq
      simp only [State.javaPuppy, (hmaps q hq).2, (hmaps' q hq).2]
  · intro p
    by_cases hp : ∃ k, p = C.puppy k
    · obtain ⟨k, rfl⟩ := hp
      exact exit_of_undated (congrArg View.puppy (hview k))
    · rw [not_exists] at hp
      rw [(hpuppies p hp).1, (hpuppies' p hp).1]
      exact ⟨rfl, rfl, rfl⟩
  · intro p
    by_cases hp : ∃ k, p = C.puppy k
    · obtain ⟨k, rfl⟩ := hp
      exact (hagree k).2
    · rw [not_exists] at hp
      rw [(hpuppies p hp).2, (hpuppies' p hp).2]

/-- Three children, with the pids 7, 8 and 9. -/
def threeChildren : Children (Fin 3) where
  pid k := ⟨7 + k.val, by omega⟩
  puppy k := k.val
  pid_inj a b h := by
    have hpid : (7 : Int) + a.val = 7 + b.val := congrArg Subtype.val h
    exact Fin.ext (by omega)
  puppy_inj _ _ h := Fin.ext h

/-- The first two are registered, by `start`. -/
def firstTwo (k : Fin 3) : Option ObjId := if k.val < 2 then some k.val else none

def twoStarted : List Label := startsWith (.caller 0) 0 7 ++ startsWith (.caller 0) 1 8

/-- The registration of the third one. -/
def thirdSpawn : Deed :=
  .register 0 (Setup.example 0).mem
    [.enter, .uvSpawn (.ok 9), .storePid, .readOut none, .readErr none]

def oneOrder : List (Fin 3 × Deed × Date) :=
  [(0, .event (.stderrCb UV_EOF []), 1), (0, .event (.exitCb 55 0), 2), (2, thirdSpawn, 3),
    (1, .event (.stdoutCb 1 [65]), 4), (2, .event (.exitCb 0 9), 5)]

def otherOrder : List (Fin 3 × Deed × Date) :=
  [(2, thirdSpawn, 1), (1, .event (.stdoutCb 1 [65]), 2), (2, .event (.exitCb 0 9), 3),
    (0, .event (.stderrCb UV_EOF []), 4), (0, .event (.exitCb 55 0), 5)]

theorem children_independent_example : ∃ (h₀ : History Label Event) (s₀ : State)
    (h h' : History (Fin 3 × Deed × Date) Event) (a a' : Named (Fin 3)),
    machine.Run (.init examplePuppies) h₀ s₀ ∧ h₀.inputs = twoStarted ∧
    threeChildren.machine.Run ⟨s₀, firstTwo⟩ h a ∧ h.inputs = oneOrder ∧
    threeChildren.machine.Run ⟨s₀, firstTwo⟩ h' a' ∧ h'.inputs = otherOrder ∧
    SameEnd a.state a'.state h.outputs h'.outputs := by
  have same {h₀ : History Label Event} {s₀ : State} {h : History (Fin 3 × Deed × Date) Event}
      {a : Named (Fin 3)} (r₀ : machine.Run (.init examplePuppies) h₀ s₀)
      (hin₀ : h₀.inputs = twoStarted)
      (hone : h₀.inputs.all (fun l => l.thread?.all (· = .caller 0)) = true)
      (hc : s₀.calls (.caller 0) = none) (hf : s₀.frame = none)
      (hreg : ∀ k c, firstTwo k = some c → threeChildren.Registered s₀ k c)
      (r : threeChildren.machine.Run ⟨s₀, firstTwo⟩ h a) (hin : h.inputs = oneOrder) :
      ∃ (h₀ : History Label Event) (s₀ : State)
        (h h' : History (Fin 3 × Deed × Date) Event) (a a' : Named (Fin 3)),
        machine.Run (.init examplePuppies) h₀ s₀ ∧ h₀.inputs = twoStarted ∧
        threeChildren.machine.Run ⟨s₀, firstTwo⟩ h a ∧ h.inputs = oneOrder ∧
        threeChildren.machine.Run ⟨s₀, firstTwo⟩ h' a' ∧ h'.inputs = otherOrder ∧
        SameEnd a.state a'.state h.outputs h'.outputs := by
    have hsame (k : Fin 3) : deeds k h.inputs = deeds k otherOrder := by
      rw [hin]
      match k with
      | 0 | 1 | 2 => rfl
    have hquiet := quiescent_of_one r₀ (.caller 0) hone hc hf
    have hind := children_independent r₀ hquiet hreg r hsame
    obtain ⟨⟨h', a', r', hin'⟩, hend⟩ := hind
    exact ⟨h₀, s₀, h, h', a, a', r₀, hin₀, r, hin, r', hin', hend h' a' r' hin'⟩
  refine same (Machine.exec_run twoStarted rfl) rfl rfl rfl rfl ?_
    (Machine.exec_run oneOrder rfl) rfl
  intro k c hk
  match k with
  | 0 =>
      cases hk
      exact ⟨⟨_, rfl⟩, rfl⟩
  | 1 =>
      cases hk
      exact ⟨⟨_, rfl⟩, rfl⟩
  | 2 => cases hk

end Dorypuppy.Manager

import Mathlib.Data.List.AList
import Dorypuppy.Support.Account
import Dorypuppy.Manager.Frames
import Dorypuppy.Manager.Emitted

/-!
# Example — the program of `example.cpp`

`example.cpp` uses the class without Java.  Its main thread starts ten children one after the other
and puts each in `processList`; the loop thread runs their callbacks, whose exit function takes the
entry out, and once a second prints how many entries there are.  A section of the mutex is one step.

* `list_accounted`: when no pid is reused, the list holds the children that were put in and not
  taken out, and the number printed is how many these are.
* `list_running`: when the exit functions run after the insertions, they are the children whose exit
  event has not been raised.
* `children_run`: there are at most ten children, and each is one of `Child.machine`.
-/

namespace Dorypuppy.Example

open Child (Reached born done)
open Manager (ObjId Holder pidsAfter uvLoop invoked raised)
open Support (Machine History Account Moves Listed part part_own part_other filterMap_part_own
  filterMap_part_other)
open Function (update update_self update_of_ne)

/-! ### The state -/

/-- What `main` makes the object of: `./child` and a number.  It registers its four functions with
the calls of `on` of `jniOn`, in the same order. -/
def setup (mem : Uninit) (number : Fin 10000) : Setup JniCallback where
  mem := mem
  loop := uvLoop
  args := [some "./child".toUTF8.toList, some (toString number.val).toUTF8.toList, none]
  cwd := none
  env := none
  timeout := 0
  listeners := jniListeners

inductive MainPc where
  | top
  | spawning (c : ObjId)
  deriving DecidableEq

structure State where
  i : Nat
  pc : MainPc
  objs : ObjId → Option (Child JniCallback)
  next : Nat
  processList : AList fun _ : Int => ObjId
  os : Int → Option Holder

def State.init : State where
  i := 0
  pc := .top
  objs _ := none
  next := 0
  processList := ∅
  os _ := none

inductive Label where
  | top (mem : Uninit) (number : Fin 10000)
  | spawn (i : Input)
  | finish
  | callback (c : ObjId) (i : Input)
  | timer
  | otherStarts (pid : Pid)
  | otherEnds (pid : Int)

/-- `erased` holds whose entry `erase` took out. -/
inductive Event where
  | act (c : ObjId) (a : Act JniCallback)
  | failed (r : Int)
  | childPid (pid : Int)
  | erased (entry : Option ObjId)
  | count (n : Nat)

/-! ### The steps -/

namespace State

/-- A step of `spawn()`.  `uv_spawn` takes a pid that is free. -/
def stepSpawn (s : State) (c : ObjId) (i : Input) : Option (State × List Event) :=
  match s.objs c with
  | none => none
  | some ch =>
      match Child.spawnStep ch.obj ch.pc i with
      | none => none
      | some (ch', as) =>
          if i.writesPid.all fun pid => s.os pid = none then
            some ({ s with objs := update s.objs c (some ch'), os := pidsAfter s.os c ch.obj i },
              as.map (.act c))
          else none

/-- A callback.  The exit function erases the entry at `getPid()`. -/
def stepCallback (s : State) (c : ObjId) (i : Input) : Option (State × List Event) :=
  match s.objs c with
  | none => none
  | some ch =>
      match ch.callbackHead i with
      | none => none
      | some (ch', as) =>
          let s' := { s with objs := update s.objs c (some ch'), os := pidsAfter s.os c ch.obj i }
          match invoked as with
          | some (.exit, _, pid) =>
              some ({ s' with processList := s.processList.erase pid },
                (as ++ ch'.callbackTail i).map (.act c) ++ [.erased (s.processList.lookup pid)])
          | _ => some (s', (as ++ ch'.callbackTail i).map (.act c))

/-- The next step of `main`.  After ten children it only sleeps, as long as `i` does not
overflow. -/
def stepTop (s : State) (mem : Uninit) (number : Fin 10000) : Option (State × List Event) :=
  match s.pc with
  | .spawning _ => none
  | .top =>
      if s.i = 2147483647 then none
      else if 10 < s.i + 1 then some ({ s with i := s.i + 1 }, [])
      else
        some ({ s with
          i := s.i + 1
          pc := .spawning s.next
          objs := update s.objs s.next (some (Child.start (setup mem number)))
          next := s.next + 1 }, [])

/-- The result of `spawn()` is checked, and the child is put in the list. -/
def stepFinish (s : State) : Option (State × List Event) :=
  match s.pc with
  | .top => none
  | .spawning c =>
      match s.objs c with
      | none => none
      | some ch =>
          match ch.pc with
          | .returned r =>
              if r ≠ 0 then some ({ s with pc := .top }, [.failed r])
              else
                some ({ s with pc := .top, processList := s.processList.insert ch.obj.getPid c },
                  [.childPid ch.obj.getPid])
          | _ => none

def step (s : State) : Label → Option (State × List Event)
  | .top mem number => s.stepTop mem number
  | .spawn i =>
      match s.pc with
      | .top => none
      | .spawning c => s.stepSpawn c i
  | .finish => s.stepFinish
  | .callback c i => s.stepCallback c i
  | .timer => some (s, [.count s.processList.entries.length])
  | .otherStarts pid =>
      if s.os pid = none then some ({ s with os := update s.os pid (some .other) }, []) else none
  | .otherEnds pid =>
      if s.os pid = some .other then some ({ s with os := update s.os pid none }, []) else none

end State

def machine : Machine State Label Event := ⟨State.step⟩

variable {s s' : State} {l : Label} {os : List Event} {c : ObjId}

/-! ### What one step can do -/

/-- The pid whose entry the functions that were run erase. -/
def exitPid? (as : List (Act JniCallback)) : Option Int :=
  match invoked as with
  | some (.exit, _, pid) => some pid
  | _ => none

/-- A child takes a step, in `spawn()` or in a callback. -/
structure ChildMoves (s : State) (c : ObjId) (i : Input) (ch ch' : Child JniCallback)
    (as : List (Act JniCallback)) : Prop where
  obj : s.objs c = some ch
  step : ch.step i = some (ch', as)
  free : ∀ pid, i.writesPid = some pid → s.os pid = none

/-- Every step, with the state after it and what it put out. -/
inductive Step (s : State) : Label → State → List Event → Prop where
  | sleep {mem number} : s.pc = .top → s.i ≠ 2147483647 → 10 ≤ s.i →
      Step s (.top mem number) { s with i := s.i + 1 } []
  | create {mem number} : s.pc = .top → s.i < 10 →
      Step s (.top mem number) { s with
        i := s.i + 1
        pc := .spawning s.next
        objs := update s.objs s.next (some (Child.start (setup mem number)))
        next := s.next + 1 } []
  | spawn {c i ch ch' as} : s.pc = .spawning c → i.isCallback = false →
      ChildMoves s c i ch ch' as → Child.spawnStep ch.obj ch.pc i = some (ch', as) →
      Step s (.spawn i)
        { s with objs := update s.objs c (some ch'), os := pidsAfter s.os c ch.obj i }
        (as.map (.act c))
  | callback {c i ch ch' as} : i.isCallback = true → ch.callbackHead i = some (ch', as) →
      ChildMoves s c i ch ch' (as ++ ch'.callbackTail i) → exitPid? as = none →
      Step s (.callback c i)
        { s with objs := update s.objs c (some ch'), os := pidsAfter s.os c ch.obj i }
        ((as ++ ch'.callbackTail i).map (.act c))
  | exit {c i ch ch' as pid} : i.isCallback = true → ch.callbackHead i = some (ch', as) →
      ChildMoves s c i ch ch' (as ++ ch'.callbackTail i) → exitPid? as = some pid →
      Step s (.callback c i)
        { s with
          objs := update s.objs c (some ch')
          os := pidsAfter s.os c ch.obj i
          processList := s.processList.erase pid }
        ((as ++ ch'.callbackTail i).map (.act c) ++ [.erased (s.processList.lookup pid)])
  | failed {c ch r} : s.pc = .spawning c → s.objs c = some ch → ch.pc = .returned r → r ≠ 0 →
      Step s .finish { s with pc := .top } [.failed r]
  | put {c ch} : s.pc = .spawning c → s.objs c = some ch → ch.pc = .returned 0 →
      Step s .finish
        { s with pc := .top, processList := s.processList.insert ch.obj.getPid c }
        [.childPid ch.obj.getPid]
  | timer : Step s .timer s [.count s.processList.entries.length]
  | otherStarts {pid : Pid} : s.os pid = none →
      Step s (.otherStarts pid) { s with os := update s.os pid (some .other) } []
  | otherEnds {pid} : s.os pid = some .other →
      Step s (.otherEnds pid) { s with os := update s.os pid none } []

theorem step_inv (h : s.step l = some (s', os)) : Step s l s' os := by
  cases l with
  | top mem number =>
      simp only [State.step, State.stepTop] at h
      split at h
      · cases h
      · split at h
        · cases h
        · split at h
          · cases h
            exact .sleep ‹_› ‹_› (by omega)
          · cases h
            exact .create ‹_› (by omega)
  | spawn i =>
      simp only [State.step] at h
      split at h
      · cases h
      · rename_i c hpc
        simp only [State.stepSpawn] at h
        split at h
        · cases h
        · rename_i ch hobj
          split at h
          · cases h
          · rename_i ch' as hst
            split at h
            · rename_i hfree
              cases h
              refine .spawn hpc (Child.spawnStep_isCallback hst)
                ⟨hobj, Child.spawnStep_step hst, fun pid hpid => ?_⟩ hst
              rw [hpid] at hfree
              simpa using hfree
            · cases h
  | finish =>
      simp only [State.step, State.stepFinish] at h
      split at h
      · cases h
      · split at h
        · cases h
        · split at h
          · split at h
            · cases h
              exact .failed ‹_› ‹_› ‹_› ‹_›
            · rename_i hr
              cases h
              obtain rfl := not_not.mp hr
              exact .put ‹_› ‹_› ‹_›
          · cases h
  | callback c i =>
      simp only [State.step, State.stepCallback] at h
      split at h
      · cases h
      · rename_i ch hobj
        split at h
        · cases h
        · rename_i ch' as hst
          have hi := Child.callbackHead_isCallback hst
          have hmoves : ChildMoves s c i ch ch' (as ++ ch'.callbackTail i) :=
            ⟨hobj, Child.callbackHead_step hst, fun pid h =>
              absurd h (Child.callbackHead_noPid hst pid)⟩
          split at h
          · rename_i args pid hinv
            cases h
            exact .exit hi hst hmoves (by rw [exitPid?, hinv])
          · rename_i hinv
            cases h
            refine .callback hi hst hmoves ?_
            rw [exitPid?]
            split
            · rename_i hx
              exact absurd hx (hinv _ _)
            · rfl
  | timer => cases h; exact .timer
  | otherStarts pid =>
      simp only [State.step] at h
      split at h
      · cases h; exact .otherStarts ‹_›
      · cases h
  | otherEnds pid =>
      simp only [State.step] at h
      split at h
      · cases h; exact .otherEnds ‹_›
      · cases h

/-! ### What holds in every state -/

variable {c₁ : ObjId} {i : Input} {ch ch' : Child JniCallback} {as : List (Act JniCallback)}

/-- The child has been put in the list. -/
def put (s : State) (c : ObjId) : Bool :=
  s.pc ≠ .spawning c && (s.objs c).any fun ch => ch.pc = .returned 0

def Event.erased? : Event → Option ObjId
  | .erased e => e
  | _ => none

/-- The child is in the list at `q`, its pid, and has been put there. -/
def Entry (s : State) (q : Int) (c : ObjId) : Prop :=
  put s c = true ∧ ∃ ch, s.objs c = some ch ∧ ch.obj.process.pid = q

structure Inv (s : State) : Prop where
  fresh : ∀ c : Nat, s.next ≤ c → s.objs c = none
  reached : ∀ c ch, s.objs c = some ch → Reached ch ∧ ch.obj.listeners = jniListeners
  current : ∀ c, s.pc = .spawning c → (s.objs c).isSome
  entry : ∀ q c, s.processList.lookup q = some c → Entry s q c
  tally : s.next = min s.i 10

theorem init_inv : Inv .init := by
  constructor <;> simp [State.init]

theorem put_iff : put s c = true ↔
    s.pc ≠ .spawning c ∧ ∃ ch, s.objs c = some ch ∧ ch.pc = .returned 0 := by
  rw [put, Bool.and_eq_true, decide_eq_true_iff, Option.any_eq_true]
  simp

theorem put_born (v : Inv s) (h : put s c = true) : ∃ ch, s.objs c = some ch ∧
    born ch = true ∧ ch.obj.pid = ch.obj.process.pid := by
  obtain ⟨-, ch, hch, hpc⟩ := put_iff.mp h
  exact ⟨ch, hch, (v.reached c ch hch).1.started hpc⟩

/-- What a child's step leaves of the other children, and of its own. -/
theorem moves_back (ho : s'.objs = update s.objs c₁ (some ch')) {x : Child JniCallback}
    (h : s'.objs c = some x) : c = c₁ ∧ x = ch' ∨ c ≠ c₁ ∧ s.objs c = some x := by
  rw [ho] at h
  by_cases hc : c = c₁
  · rw [hc, update_self] at h
    exact .inl ⟨hc, (Option.some.inj h).symm⟩
  · rw [update_of_ne hc] at h
    exact .inr ⟨hc, h⟩

theorem moves_other (ho : s'.objs = update s.objs c₁ (some ch')) (hc : c ≠ c₁) :
    s'.objs c = s.objs c := by
  rw [ho, update_of_ne hc]

/-- The pid of a child that was put in is not written again. -/
theorem ChildMoves.entry (m : ChildMoves s c₁ i ch ch' as) (v : Inv s)
    (ho : s'.objs = update s.objs c₁ (some ch')) {q : Int} (hput : put s' c = put s c)
    (he : Entry s q c) : Entry s' q c := by
  obtain ⟨hp, x, hx, hq⟩ := he
  refine ⟨hput.trans hp, ?_⟩
  by_cases hc : c = c₁
  · subst hc
    cases m.obj.symm.trans hx
    obtain ⟨x, hx, hborn, -⟩ := put_born v hp
    cases m.obj.symm.trans hx
    have hpid := ((v.reached c ch m.obj).1.born_step m.step hborn).2
    exact ⟨ch', by rw [ho, update_self], hpid.trans hq⟩
  · exact ⟨x, by rw [moves_other ho hc, hx], hq⟩

/-- A step of `spawn()` is one of the child `main` is at, which is not in the list yet; a callback
leaves `spawn()` where it is. -/
theorem ChildMoves.put (m : ChildMoves s c₁ i ch ch' as)
    (ho : s'.objs = update s.objs c₁ (some ch')) (hpc : s'.pc = s.pc)
    (h : s.pc = .spawning c₁ ∨ ch'.pc = ch.pc) (c : ObjId) : put s' c = put s c := by
  rw [Example.put, Example.put, hpc]
  by_cases hc : c = c₁
  · subst hc
    rcases h with h | h
    · simp [h]
    · rw [ho, update_self, m.obj, Option.any_some, Option.any_some, h]
  · rw [moves_other ho hc]

/-- `main` goes back to the top, or on to a new child. -/
theorem put_pc (hne : s.pc ≠ .spawning c) (hne' : s'.pc ≠ .spawning c)
    (ho : s'.objs c = s.objs c) : put s' c = put s c := by
  simp only [put, ho, hne, hne', ne_eq, not_false_eq_true, decide_true]

theorem Entry.congr {q : Int} (he : Entry s q c) (hput : put s' c = put s c)
    (ho : s'.objs c = s.objs c) : Entry s' q c := ⟨hput.trans he.1, ho ▸ he.2⟩

theorem step_keeps_inv (v : Inv s) (hs : Step s l s' os) : Inv s' := by
  -- a child takes a step
  have moves {c₁ i ch ch' as} (m : ChildMoves s c₁ i ch ch' as)
      (ho : s'.objs = update s.objs c₁ (some ch')) (hpc : s'.pc = s.pc) (hn : s'.next = s.next)
      (hi : s'.i = s.i) (h : s.pc = .spawning c₁ ∨ ch'.pc = ch.pc)
      (hl : ∀ q c, s'.processList.lookup q = some c → s.processList.lookup q = some c) :
      Inv s' := by
    refine ⟨fun c hc => ?_, fun c x hx => ?_, fun c hc => ?_, fun q c hq => ?_, ?_⟩
    · rw [moves_other ho, v.fresh c (hn ▸ hc)]
      rintro rfl
      have := v.fresh c (hn ▸ hc)
      rw [m.obj] at this
      cases this
    · rcases moves_back ho hx with ⟨rfl, rfl⟩ | ⟨-, hx⟩
      · obtain ⟨hr, hl⟩ := v.reached c ch m.obj
        exact ⟨hr.step m.step, (Child.step_const m.step).2.2.trans hl⟩
      · exact v.reached c x hx
    · by_cases hcc : c = c₁
      · rw [hcc, ho, update_self]
        rfl
      · rw [moves_other ho hcc]
        exact v.current c (hpc ▸ hc)
    · exact m.entry v ho (m.put ho hpc h c) (v.entry q c (hl q c hq))
    · rw [hn, hi, v.tally]
  cases hs with
  | sleep hpc _ hi =>
      refine ⟨v.fresh, v.reached, v.current, v.entry, ?_⟩
      have := v.tally
      dsimp only
      omega
  | @create mem number hpc hi =>
      have hnew := v.fresh s.next le_rfl
      refine ⟨fun c hc => ?_, fun c x hx => ?_, fun c hc => ?_, fun q c hq => ?_, ?_⟩
      · dsimp only at hc ⊢
        rw [update_of_ne (Nat.ne_of_gt hc), v.fresh c (Nat.le_of_succ_le hc)]
      · dsimp only at hx
        by_cases hc : c = s.next
        · rw [hc, update_self] at hx
          cases hx
          exact ⟨Child.reached_start _, rfl⟩
        · rw [update_of_ne hc] at hx
          exact v.reached c x hx
      · cases hc
        dsimp only
        rw [update_self]
        rfl
      · have he := v.entry q c hq
        have hc : c ≠ s.next := by
          rintro rfl
          obtain ⟨-, x, hx, -⟩ := he
          rw [hnew] at hx
          cases hx
        refine he.congr (put_pc (by rw [hpc]; nofun) ?_ (update_of_ne hc ..)) (update_of_ne hc ..)
        exact fun h => hc (MainPc.spawning.inj h).symm
      · have := v.tally
        dsimp only
        omega
  | spawn hpc _ m => exact moves m rfl rfl rfl rfl (.inl hpc) fun _ _ h => h
  | callback _ hst m =>
      exact moves m rfl rfl rfl rfl (.inr (Child.callbackHead_pc hst)) fun _ _ h => h
  | @exit c i ch ch' as pid _ hst m =>
      refine moves m rfl rfl rfl rfl (.inr (Child.callbackHead_pc hst)) fun q c h => ?_
      by_cases hq : q = pid
      · rw [hq, AList.lookup_erase] at h
        cases h
      · rwa [AList.lookup_erase_ne hq] at h
  | @failed c ch r hpc hch hret hr =>
      refine ⟨v.fresh, v.reached, nofun, fun q c' hq => ?_, v.tally⟩
      have he := v.entry q c' hq
      exact he.congr (put_pc (put_iff.mp he.1).1 nofun rfl) rfl
  | @put c ch hpc hch hret =>
      have hpid := ((v.reached c ch hch).1.started hret).2
      refine ⟨v.fresh, v.reached, nofun, fun q c' hq => ?_, v.tally⟩
      dsimp only at hq
      by_cases hqp : q = ch.obj.getPid
      · rw [hqp, AList.lookup_insert] at hq
        cases hq
        exact ⟨put_iff.mpr ⟨nofun, ch, hch, hret⟩, ch, hch, hqp ▸ hpid.symm⟩
      · rw [AList.lookup_insert_ne hqp] at hq
        have he := v.entry q c' hq
        exact he.congr (put_pc (put_iff.mp he.1).1 nofun rfl) rfl
  | timer => exact v
  | otherStarts | otherEnds => exact ⟨v.fresh, v.reached, v.current, v.entry, v.tally⟩

theorem run_inv {C : State → Label → Prop} {h : History Label Event}
    (r : machine.RunWhere C .init h s) : Inv s :=
  r.inv (fun _ s => Inv s) init_inv fun _ _ hs v => step_keeps_inv v (step_inv hs)

/-! ### Pids that are not reused -/

/-- `uv_spawn` takes a pid that no earlier child had. -/
def pidFresh (s : State) : Label → Bool
  | .spawn (.uvSpawn (.ok pid)) =>
      (List.range s.next).all fun c => (s.objs c).all fun ch =>
        !(born ch && ch.obj.process.pid = (pid : Int))
  | _ => true

/-- A child with a pid has it for itself. -/
def Distinct (s : State) : Prop := ∀ c c' ch ch', s.objs c = some ch → s.objs c' = some ch' →
  born ch = true → born ch' = true → ch.obj.process.pid = ch'.obj.process.pid → c = c'

/-- A child that has a pid after a step had it before, or has just been given it. -/
theorem born_back (v : Inv s) (hs : Step s l s' os) {x' : Child JniCallback}
    (h : s'.objs c = some x') (hb : born x' = true) :
    (∃ x, s.objs c = some x ∧ born x = true ∧ x.obj.process.pid = x'.obj.process.pid) ∨
      ∃ pid, l = .spawn (.uvSpawn (.ok pid)) ∧ s.pc = .spawning c ∧
        x'.obj.process.pid = pid := by
  cases hs with
  | @create mem number hpc hi =>
      dsimp only at h
      by_cases hc : c = s.next
      · rw [hc, update_self] at h
        cases h
        cases hb
      · rw [update_of_ne hc] at h
        exact .inl ⟨x', h, hb, rfl⟩
  | @spawn c₁ i ch ch' as hpc _ m =>
      rcases moves_back rfl h with ⟨rfl, rfl⟩ | ⟨-, h⟩
      · cases hi : i.spawns with
        | true =>
            obtain ⟨pid, rfl⟩ := Child.eq_of_spawns hi
            exact .inr ⟨pid, rfl, hpc, Child.step_processPid m.step⟩
        | false =>
            obtain ⟨hb₀, hp⟩ := (v.reached c ch m.obj).1.born_back m.step hi hb
            exact .inl ⟨ch, m.obj, hb₀, hp.symm⟩
      · exact .inl ⟨x', h, hb, rfl⟩
  | @callback c₁ i ch ch' as _ hst m | @exit c₁ i ch ch' as pid _ hst m =>
      rcases moves_back rfl h with ⟨rfl, rfl⟩ | ⟨-, h⟩
      · obtain ⟨hb₀, hp⟩ := (v.reached c ch m.obj).1.born_back m.step
          (Child.callbackHead_spawns hst) hb
        exact .inl ⟨ch, m.obj, hb₀, hp.symm⟩
      · exact .inl ⟨x', h, hb, rfl⟩
  | _ => exact .inl ⟨x', h, hb, rfl⟩

theorem fresh_spawn {pid : Pid} (hC : pidFresh s (.spawn (.uvSpawn (.ok pid))) = true) (v : Inv s)
    {x : Child JniCallback} (hx : s.objs c = some x) (hb : born x = true) :
    x.obj.process.pid ≠ pid := by
  intro hpid
  have hlt : c < s.next := by
    by_contra hge
    rw [v.fresh c (Nat.le_of_not_lt hge)] at hx
    cases hx
  have := List.all_eq_true.mp hC c (List.mem_range.mpr hlt)
  simp [hx, hb, hpid] at this

theorem step_distinct (v : Inv s) (d : Distinct s) (hC : pidFresh s l = true)
    (hs : Step s l s' os) : Distinct s' := by
  intro c c' x x' h h' hb hb' hp
  rcases born_back v hs h hb with ⟨y, hy, hyb, hyp⟩ | ⟨pid, rfl, hpc, hxp⟩
  · rcases born_back v hs h' hb' with ⟨y', hy', hyb', hyp'⟩ | ⟨pid, rfl, -, hxp'⟩
    · exact d _ _ _ _ hy hy' hyb hyb' (by rw [hyp, hyp', hp])
    · exact absurd (hyp.trans (hp.trans hxp')) (fresh_spawn hC v hy hyb)
  · rcases born_back v hs h' hb' with ⟨y', hy', hyb', hyp'⟩ | ⟨pid', hl, hpc', -⟩
    · exact absurd (hyp'.trans (hp.symm.trans hxp)) (fresh_spawn hC v hy' hyb')
    · rw [hpc] at hpc'
      exact MainPc.spawning.inj hpc'

theorem run_distinct {h : History Label Event}
    (r : machine.RunWhere (fun s l => pidFresh s l = true) .init h s) : Distinct s :=
  r.inv (fun _ s => Distinct s) (fun _ _ _ _ h => by cases h) fun r hC hs d =>
    step_distinct (run_inv r) d hC (step_inv hs)

/-! ### The account of the list -/

/-- Whose entry is at a key. -/
def table (s : State) (q : Int) : Option ObjId := s.processList.lookup q

theorem table_one (v : Inv s) {q q' : Int} (h : table s q = some c) (h' : table s q' = some c) :
    q = q' := by
  obtain ⟨-, x, hx, hq⟩ := v.entry q c h
  obtain ⟨-, x', hx', hq'⟩ := v.entry q' c h'
  cases hx.symm.trans hx'
  exact hq.symm.trans hq'

theorem erased_acts : (as.map (Event.act c)).filterMap Event.erased? = [] := by
  simp [List.filterMap_map, Event.erased?]

/-- The child `main` is at has not been put in. -/
theorem put_current (hpc : s.pc = .spawning c) : put s c = false := by
  simp [put, hpc]

/-- The pid whose entry a callback erases is that of its child, whose exit event it raises. -/
theorem exitPid_raised (v : Inv s) {pid : Int} (hc : s.objs c = some ch)
    (hst : ch.callbackHead i = some (ch', as)) (hx : exitPid? as = some pid) :
    (raised ch.obj i).any (·.1 = .exit) = true ∧ born ch = true ∧ ch.obj.process.pid = pid := by
  obtain ⟨hr, hl⟩ := v.reached c ch hc
  rw [exitPid?, Manager.invoked_eq hl hst] at hx
  cases hk : raised ch.obj i with
  | none => rw [hk] at hx; cases hx
  | some x =>
      obtain ⟨k, args⟩ := x
      rw [hk] at hx
      cases k with
      | exit =>
          obtain ⟨hb, hp⟩ := (Manager.raised_facts hr hst hk).1 nofun
          cases hx
          exact ⟨rfl, hb, hp.symm⟩
      | _ => cases hx

theorem exitPid_quiet (v : Inv s) (hc : s.objs c = some ch)
    (hst : ch.callbackHead i = some (ch', as)) (hx : exitPid? as = none) :
    (raised ch.obj i).any (·.1 = .exit) = false := by
  rw [exitPid?, Manager.invoked_eq (v.reached c ch hc).2 hst] at hx
  cases hk : raised ch.obj i with
  | none => rfl
  | some x =>
      obtain ⟨k, args⟩ := x
      rw [hk] at hx
      cases k with
      | exit => cases hx
      | _ => rfl

theorem step_table (v : Inv s) (d : Distinct s) (hs : Step s l s' os) :
    Moves (table s) (table s') (put s) (put s') (os.filterMap Event.erased?) := by
  cases hs with
  | @create mem number hpc hi =>
      refine .stay rfl (fun c => ?_) rfl
      by_cases hc : c = s.next
      · subst hc
        rw [put_current rfl, put, v.fresh s.next le_rfl, Option.any_none, Bool.and_false]
      · refine put_pc (by rw [hpc]; nofun) (fun h => ?_) (update_of_ne hc ..)
        exact hc (MainPc.spawning.inj h).symm
  | spawn hpc _ m => exact .stay rfl (m.put rfl rfl (.inl hpc)) erased_acts
  | callback _ hst m =>
      exact .stay rfl (m.put rfl rfl (.inr (Child.callbackHead_pc hst))) erased_acts
  | @exit c i ch ch' as pid _ hst m =>
      refine .take (k := pid) (funext fun q => ?_)
        (m.put rfl rfl (.inr (Child.callbackHead_pc hst))) ?_
      · by_cases hq : q = pid
        · rw [hq, update_self]
          exact AList.lookup_erase ..
        · rw [update_of_ne hq]
          exact AList.lookup_erase_ne hq
      · rw [List.filterMap_append, erased_acts, List.nil_append, List.filterMap_cons]
        cases hx : s.processList.lookup pid <;> simp [Event.erased?, table, hx]
  | @failed c ch r hpc hch hret hr =>
      refine .stay rfl (fun c' => ?_) rfl
      by_cases hc : c' = c
      · subst hc
        rw [put_current hpc, put, hch, Option.any_some, hret]
        simp [hr]
      · refine put_pc ?_ nofun rfl
        rw [hpc]
        exact fun h => hc (MainPc.spawning.inj h).symm
  | @put c ch hpc hch hret =>
      obtain ⟨hborn, hpid⟩ := (v.reached c ch hch).1.started hret
      refine .put (k := ch.obj.getPid) (o := c) (funext fun q => ?_) ?_ (put_current hpc)
        (fun c' => ?_) rfl
      · by_cases hq : q = ch.obj.getPid
        · rw [hq, update_self]
          exact AList.lookup_insert _
        · rw [update_of_ne hq]
          exact AList.lookup_insert_ne hq
      · -- whoever has the pid is the child itself
        by_contra hne
        obtain ⟨c', hc'⟩ := Option.ne_none_iff_exists'.mp hne
        obtain ⟨hp, x, hx, hq⟩ := v.entry _ _ hc'
        obtain ⟨y, hy, hb, -⟩ := put_born v hp
        cases hx.symm.trans hy
        have := d _ _ _ _ hx hch hb hborn (hq.trans hpid)
        subst this
        rw [put_current hpc] at hp
        cases hp
      · split
        · rename_i hc
          subst hc
          exact put_iff.mpr ⟨nofun, ch, hch, hret⟩
        · rename_i hc
          refine put_pc ?_ nofun rfl
          rw [hpc]
          exact fun h => hc (MainPc.spawning.inj h).symm
  | _ => exact .stay rfl (fun _ => rfl) rfl

theorem put_lt (v : Inv s) (h : put s c = true) : c < s.next := by
  obtain ⟨-, x, hx, -⟩ := put_iff.mp h
  by_contra hge
  rw [v.fresh c (Nat.le_of_not_lt hge)] at hx
  cases hx

/-- The children that were put in. -/
def puts (s : State) : List ObjId := (List.range s.next).filter (put s)

theorem list_account {h : History Label Event}
    (r : machine.RunWhere (fun s l => pidFresh s l = true) .init h s) :
    Account (table s) (put s) (h.outputs.filterMap Event.erased?) := by
  refine r.inv (fun h s => Account (table s) (put s) (h.outputs.filterMap Event.erased?))
    .empty fun r _ hs a => ?_
  rw [History.outputs_append, History.outputs_cons, History.outputs_nil, List.append_nil,
    List.filterMap_append]
  exact a.moves (step_table (run_inv r) (run_distinct r) (step_inv hs))
    fun _ _ _ => table_one (run_inv r)

/-- **Nothing is lost in the list.**  In every run in which no pid is reused, whatever the order of
insertions and exits, `processList` holds the children that were put in and have not been taken
out; each was taken out once at most, and the number of entries is how many these are. -/
theorem list_accounted {h : History Label Event}
    (r : machine.RunWhere (fun s l => pidFresh s l = true) .init h s) :
    Account (table s) (put s) (h.outputs.filterMap Event.erased?) ∧
      s.processList.entries.length + (h.outputs.filterMap Event.erased?).length =
        (puts s).length := by
  have v := run_inv r
  have a := list_account r
  refine ⟨a, Account.length_eq a (fun _ _ _ => table_one v) (List.nodup_range.filter _)
    fun o => ?_⟩
  rw [puts, List.mem_filter, List.mem_range]
  exact ⟨And.right, fun h => ⟨put_lt v h, h⟩⟩

/-- One round of `main`, up to the end of `spawn()`. -/
def starts (pid : Pid) : List Label :=
  [.top (Setup.example 0).mem 2000, .spawn .enter, .spawn (.uvSpawn (.ok pid)), .spawn .storePid,
    .spawn (.readOut none), .spawn (.readErr none)]

/-- The end of `./child`. -/
def ends (c : ObjId) : List Label := [.callback c (.stderrCb UV_EOF []), .callback c (.exitCb 55 0)]

/-- The second child ends before it is put in, and stays in the list. -/
theorem list_accounted_example : ∃ h s,
    machine.RunWhere (fun s l => pidFresh s l = true) .init h s ∧
    h.outputs.filterMap Event.erased? = [0] ∧ puts s = [0, 1] ∧ table s 8 = some 1 ∧
    s.processList.entries.length + [0].length = (puts s).length := by
  have r := Machine.execWhere_run (M := machine) (C := pidFresh) (s := .init)
    (starts 7 ++ [.finish] ++ ends 0 ++ starts 8 ++ ends 1 ++ [.finish]) rfl
  exact ⟨_, _, r, rfl, rfl, rfl, (list_accounted r).2⟩

/-! ### When exits come after insertions -/

/-- The exit event of a child is raised when the child has been put in. -/
def inTime (s : State) : Label → Bool
  | .callback c i =>
      (s.objs c).all fun ch => !(raised ch.obj i).any (·.1 = .exit) || put s c
  | _ => true

/-- The children whose exit event was raised are those that were taken out. -/
def Taken (taken : List ObjId) (s : State) : Prop :=
  ∀ c ch, s.objs c = some ch → (done ch = true ↔ c ∈ taken)

theorem step_taken (v : Inv s) {taken : List ObjId} (a : Account (table s) (put s) taken)
    (g : Taken taken s) (hC : inTime s l = true) (hs : Step s l s' os) :
    Taken (taken ++ os.filterMap Event.erased?) s' := by
  intro c x hx
  cases hs with
  | @create mem number hpc hi =>
      rw [List.filterMap_nil, List.append_nil]
      dsimp only at hx
      by_cases hc : c = s.next
      · subst hc
        rw [update_self] at hx
        cases hx
        refine ⟨nofun, fun ht => ?_⟩
        have := put_lt v (a.mine _ ht)
        exact absurd this (Nat.lt_irrefl _)
      · rw [update_of_ne hc] at hx
        exact g c x hx
  | spawn _ _ m hst =>
      rw [erased_acts, List.append_nil]
      rcases moves_back rfl hx with ⟨rfl, rfl⟩ | ⟨-, hx⟩
      · rw [Manager.done_spawnStep hst]
        exact g c _ m.obj
      · exact g c x hx
  | callback _ hst m hquiet =>
      rw [erased_acts, List.append_nil]
      rcases moves_back rfl hx with ⟨rfl, rfl⟩ | ⟨-, hx⟩
      · rw [Manager.done_callback hst, exitPid_quiet v m.obj hst hquiet, Bool.or_false]
        exact g c _ m.obj
      · exact g c x hx
  | @exit c₁ i ch ch' as pid _ hst m hpid =>
      obtain ⟨hraised, hborn, rfl⟩ := exitPid_raised v m.obj hst hpid
      -- the child is in the list, at its pid
      have hput : put s c₁ = true := by
        simpa [inTime, m.obj, hraised] using hC
      have hnot : c₁ ∉ taken := by
        intro ht
        obtain ⟨⟨k, args⟩, hk, hkk⟩ := (Option.any_eq_true ..).mp hraised
        obtain rfl : k = .exit := of_decide_eq_true hkk
        have := (g c₁ ch m.obj).mpr ht
        rw [Manager.done_raised (v.reached c₁ ch m.obj).1 hst hk] at this
        cases this
      have hat : s.processList.lookup ch.obj.process.pid = some c₁ := by
        obtain ⟨q, hq⟩ := (a.listed c₁).mpr ⟨hput, hnot⟩
        obtain ⟨-, y, hy, hyq⟩ := v.entry q c₁ hq
        cases m.obj.symm.trans hy
        rw [hyq]
        exact hq
      rw [List.filterMap_append, erased_acts, List.nil_append, hat]
      have hone : [Event.erased (some c₁)].filterMap Event.erased? = [c₁] := rfl
      rw [hone, List.mem_append, List.mem_singleton]
      rcases moves_back rfl hx with ⟨rfl, rfl⟩ | ⟨hne, hx⟩
      · rw [Manager.done_callback hst, hraised, Bool.or_true]
        exact ⟨fun _ => .inr rfl, fun _ => rfl⟩
      · rw [g c x hx]
        exact ⟨.inl, fun h => h.resolve_right hne⟩
  | _ =>
      rw [show List.filterMap Event.erased? _ = [] from rfl, List.append_nil]
      exact g c x hx

/-- **The list holds the running children.**  When no pid is reused and no exit event is raised
before its child is put in, the entry at `q` is that of the child with the pid `q` that was put in
and whose exit event has not been raised. -/
theorem list_running {h : History Label Event}
    (r : machine.RunWhere (fun s l => pidFresh s l = true ∧ inTime s l = true) .init h s)
    (q : Int) (c : ObjId) : s.processList.lookup q = some c ↔
      put s c = true ∧ ∃ ch, s.objs c = some ch ∧ ch.obj.process.pid = q ∧ done ch = false := by
  have fresh {h s} (r : machine.RunWhere (fun s l => pidFresh s l = true ∧ inTime s l = true)
      .init h s) := list_account (r.mono fun _ _ => And.left)
  have g : Taken (h.outputs.filterMap Event.erased?) s := by
    refine r.inv (fun h s => Taken (h.outputs.filterMap Event.erased?) s)
      (fun _ _ h => by cases h) fun r hC hs g => ?_
    rw [History.outputs_append, History.outputs_cons, History.outputs_nil, List.append_nil,
      List.filterMap_append]
    exact step_taken (run_inv r) (fresh r) g hC.2 (step_inv hs)
  have v := run_inv r
  constructor
  · intro hq
    obtain ⟨hput, ch, hch, hpid⟩ := v.entry q c hq
    refine ⟨hput, ch, hch, hpid, Bool.eq_false_iff.mpr fun hd => ?_⟩
    exact (((fresh r).listed c).mp ⟨q, hq⟩).2 ((g c ch hch).mp hd)
  · rintro ⟨hput, ch, hch, rfl, hd⟩
    have hnot : c ∉ h.outputs.filterMap Event.erased? := fun ht => by
      rw [(g c ch hch).mpr ht] at hd
      cases hd
    obtain ⟨q, hq⟩ := ((fresh r).listed c).mpr ⟨hput, hnot⟩
    obtain ⟨-, y, hy, rfl⟩ := v.entry q c hq
    cases hch.symm.trans hy
    exact hq

theorem list_running_example : ∃ h s,
    machine.RunWhere (fun s l => pidFresh s l = true ∧ inTime s l = true) .init h s ∧
    s.processList.lookup 8 = some 1 ∧ s.processList.lookup 7 ≠ some 0 := by
  have r := (Machine.execWhere_run (M := machine) (C := fun s l => pidFresh s l && inTime s l)
    (s := .init) (starts 7 ++ [.finish] ++ ends 0 ++ starts 8 ++ [.finish]) rfl).mono
    fun _ _ h => Bool.and_eq_true_iff.mp h
  refine ⟨_, _, r, (list_running r 8 1).mpr ⟨rfl, _, rfl, rfl, rfl⟩, fun hq => ?_⟩
  obtain ⟨-, ch, hch, -, hd⟩ := (list_running r 7 0).mp hq
  cases hch
  cases hd

/-! ### The children -/

def Event.acted : Event → Option (ObjId × Act JniCallback)
  | .act c a => some (c, a)
  | _ => none

/-- What the object `c` did. -/
def acts (c : ObjId) (os : List Event) : List (Act JniCallback) :=
  os.filterMap (part Event.acted c)

def Label.calledBack : Label → Option (ObjId × Input)
  | .callback c i => some (c, i)
  | _ => none

def Label.callback? (c : ObjId) : Label → Option Input := part Label.calledBack c

theorem acts_own : acts c (as.map (.act c)) = as := filterMap_part_own Event.acted (fun _ => rfl) as

theorem acts_other (hne : c₁ ≠ c) : acts c (as.map (.act c₁)) = [] :=
  filterMap_part_other Event.acted (fun _ => rfl) hne as

@[simp] theorem acts_append (os os' : List Event) :
    acts c (os ++ os') = acts c os ++ acts c os' := List.filterMap_append

/-- What is known of the object `c` after the run `h`: it has not been made, or it is a child. -/
def Traced (h : History Label Event) (s : State) (c : ObjId) : Prop :=
  match s.objs c with
  | none => acts c h.outputs = [] ∧ h.inputs.filterMap (Label.callback? c) = []
  | some ch => ∃ mem number k,
      (Child.machine JniCallback).Run (Child.start (setup mem number)) k ch ∧
      k.outputs = acts c h.outputs ∧
      k.inputs.filter Input.isCallback = h.inputs.filterMap (Label.callback? c)

theorem Traced.stay {h : History Label Event} (g : Traced h s c) (ho : s'.objs c = s.objs c)
    (ha : acts c os = []) (hl : l.callback? c = none) : Traced (h ++ [(l, os)]) s' c := by
  unfold Traced at g ⊢
  rw [ho]
  simpa [ha, hl] using g

theorem Traced.moves {h : History Label Event} (g : Traced h s c)
    (m : ChildMoves s c i ch ch' as) (ho : s'.objs = update s.objs c (some ch'))
    (ha : acts c os = as) (hl : l.callback? c = if i.isCallback then some i else none) :
    Traced (h ++ [(l, os)]) s' c := by
  unfold Traced at g ⊢
  rw [m.obj] at g
  rw [ho, update_self]
  obtain ⟨mem, number, k, rk, hout, hin⟩ := g
  refine ⟨mem, number, _, rk.snoc trivial m.step, ?_, ?_⟩
  · simp [hout, ha]
  · cases hi : i.isCallback <;> simp [hin, hl, hi]

theorem step_traced {h : History Label Event} (v : Inv s) (g : Traced h s c)
    (hs : Step s l s' os) : Traced (h ++ [(l, os)]) s' c := by
  cases hs with
  | @create mem number hpc hi =>
      by_cases hc : c = s.next
      · subst hc
        unfold Traced at g ⊢
        rw [v.fresh s.next le_rfl] at g
        dsimp only
        rw [update_self]
        obtain ⟨hacts, hcb⟩ := g
        refine ⟨mem, number, [], .nil, ?_, ?_⟩
        · rw [History.outputs_append, acts_append, hacts]
          rfl
        · rw [History.inputs_append, List.filterMap_append, hcb]
          rfl
      · exact g.stay (update_of_ne hc ..) rfl rfl
  | @spawn c₁ i ch ch' as hpc hi m =>
      by_cases hc : c₁ = c
      · subst hc
        exact g.moves m rfl acts_own (by rw [hi]; rfl)
      · exact g.stay (update_of_ne (Ne.symm hc) ..) (acts_other hc) rfl
  | @callback c₁ i ch ch' as hi hst m =>
      by_cases hc : c₁ = c
      · subst hc
        exact g.moves m rfl acts_own (by rw [hi, if_pos rfl]; exact part_own rfl)
      · exact g.stay (update_of_ne (Ne.symm hc) ..) (acts_other hc) (part_other rfl hc)
  | @exit c₁ i ch ch' as pid hi hst m =>
      by_cases hc : c₁ = c
      · subst hc
        refine g.moves m rfl ?_ (by rw [hi, if_pos rfl]; exact part_own rfl)
        rw [acts_append, acts_own]
        exact List.append_nil _
      · refine g.stay (update_of_ne (Ne.symm hc) ..) ?_ (part_other rfl hc)
        rw [acts_append, acts_other hc]
        rfl
  | _ => exact g.stay rfl rfl rfl

theorem init_traced : Traced [] .init c := by
  unfold Traced
  exact ⟨rfl, rfl⟩

/-- **Its children are children.**  In every run there are at most ten objects, and what each does
is a run of the child it was made as, with the callbacks it has in that run. -/
theorem children_run {h : History Label Event} (r : machine.Run .init h s)
    (hch : s.objs c = some ch) : c < 10 ∧ ∃ mem number k,
      (Child.machine JniCallback).Run (Child.start (setup mem number)) k ch ∧
      k.outputs = acts c h.outputs ∧
      k.inputs.filter Input.isCallback = h.inputs.filterMap (Label.callback? c) := by
  have v := run_inv r
  have hlt : c < s.next := by
    by_contra hge
    rw [v.fresh c (Nat.le_of_not_lt hge)] at hch
    cases hch
  refine ⟨hlt.trans_le (v.tally ▸ min_le_right ..), ?_⟩
  have g : Traced h s c := r.inv (fun h s => Traced h s c) init_traced fun r _ hs g =>
    step_traced (run_inv r) g (step_inv hs)
  unfold Traced at g
  rwa [hch] at g

theorem children_run_example : ∃ h s ch mem number k, machine.Run .init h s ∧
    s.objs 0 = some ch ∧ (Child.machine JniCallback).Run (Child.start (setup mem number)) k ch ∧
    k.outputs = acts 0 h.outputs ∧
    k.inputs.filter Input.isCallback = [.stderrCb UV_EOF [], .exitCb 55 0] := by
  have r := Machine.exec_run (M := machine) (s := .init)
    (starts 7 ++ [.finish] ++ ends 0) rfl
  obtain ⟨-, mem, number, k, rk, hout, hin⟩ := children_run (c := 0) r rfl
  exact ⟨_, _, _, mem, number, k, r, rfl, rk, hout, hin⟩

end Dorypuppy.Example

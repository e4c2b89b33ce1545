import Dorypuppy.Support.Monitor
import Dorypuppy.Manager.Atomic
import Dorypuppy.Manager.Listening

/-!
# Manager — the life of a child

What the manager does because of one child, in its order: the child raises events, their listeners
are called, the exit is written to its `DoryProcess`, and the entries are taken out of the two maps.
`lifeCycle` says which of these may follow which.  It knows no threads, no pids and no maps.

* `life_cycle`: in every run in which no pid is reused and the listeners return, whatever the
  threads do, what happens because of a child follows its life cycle.
* `exit_closes`: so once an exit has begun to be recorded, the exit listener is the only one still
  called for the child.
-/

namespace Dorypuppy.Manager

open Child (Reached born done)
open Support (Machine Monitor History)
open Function (update update_self update_of_ne)

variable {s s' : State} {l : Label} {os : List Event} {c : ObjId} {p : PuppyId}

/-! ### The life cycle -/

/-- What happens because of a child. -/
inductive Mark where
  | raised (k : JniCallback) (args : JArgs)
  | heard (p : PuppyId) (k : JniCallback) (args : JArgs)
  | wrote (p : PuppyId) (w : Write)
  | removed (entry : Option ObjId)
  | erased
  deriving DecidableEq

def Event.mark? (c : ObjId) : Event → Option Mark
  | .act c' (.invoke k args _) => if c' = c then some (.raised k (jniArgs args)) else none
  | .listener p _ k _ args c' => if c' = c then some (.heard p k args) else none
  | .wrote p w c' => if c' = c then some (.wrote p w) else none
  | .removed _ e c' => if c' = c then some (.removed e) else none
  | .erased _ _ c' => if c' = c then some .erased else none
  | _ => none

/-- What happened because of a child, in its order. -/
def marks (c : ObjId) (os : List Event) : List Mark := os.filterMap (Event.mark? c)

/-- How far the life of a child has come.  `ended` tells that its exit event has been raised. -/
inductive LifePhase where
  | calm (ended : Bool)
  | due (k : JniCallback) (args : JArgs) (ended : Bool)
  | exit (code signal : Int)
  | coded (code signal : Int)
  | signalled (code signal : Int)
  | recorded (code signal : Int)
  | told
  | removed (known : Bool)
  | gone
  deriving DecidableEq

/-- An event is raised.  After the exit event only stdout is left, which may still be read. -/
def LifePhase.raise (ended : Bool) (k : JniCallback) (args : JArgs) : Option LifePhase :=
  match k, args with
  | .exit, .status code signal => if ended then none else some (.exit code signal)
  | .exit, _ => none
  | .stdout, args => some (.due .stdout args ended)
  | k, args => if ended then none else some (.due k args false)

/-- The life of a child of `p`.

An event may be passed to its listener before the next one is raised.  The exit of a child that is
registered is recorded field by field, then passed to its listener, and then the entries go; what
stdout brings after that is not passed on.  The exit of a child that is not registered is not
recorded; its registration may come later, and what its stdout still brings is passed on then. -/
def lifeCycle (p : PuppyId) (c : ObjId) : Monitor LifePhase Mark where
  start := .calm false
  next
    | .calm ended, .raised k args | .due _ _ ended, .raised k args => LifePhase.raise ended k args
    | .due k args ended, .heard p' k' args' =>
        if k' = k ∧ args' = args ∧ (k = .timeout ∨ p' = p) then some (.calm ended) else none
    | .exit code signal, .wrote p' w =>
        if p' = p ∧ w = .code code then some (.coded code signal) else none
    | .coded code signal, .wrote p' w =>
        if p' = p ∧ w = .signal signal then some (.signalled code signal) else none
    | .signalled code signal, .wrote p' (.exitedAt _) =>
        if p' = p then some (.recorded code signal) else none
    | .recorded code signal, .heard p' k args =>
        if p' = p ∧ k = .exit ∧ args = .status code signal then some .told else none
    | .exit _ _, .removed none => some (.removed false)
    | .exit _ _, .removed (some c') | .recorded _ _, .removed (some c')
    | .told, .removed (some c') => if c' = c then some (.removed true) else none
    | .removed known, .erased => some (if known then .gone else .calm true)
    | .gone, .raised .stdout _ => some .gone
    | _, _ => none

/-! ### What the phases say of the state -/

/-- The exit event has been raised. -/
def isDone (s : State) (c : ObjId) : Bool := (s.objs c).any fun sp => done sp.child

/-- The callback of the child. -/
def State.own (s : State) (c : ObjId) : Option Frame := s.frame.filter fun f => f.child = c

/-- The child has been registered, and its entry is not in the Java map any more. -/
def Absent (s : State) (c : ObjId) : Prop :=
  ∃ sp, s.objs c = some sp ∧ sp.stage = .java ∧ born sp.child = true ∧
    s.javaList sp.child.obj.process.pid = none

def LifePhase.ended : LifePhase → Bool
  | .calm ended | .due _ _ ended => ended
  | _ => true

/-- Where the callback of the child is in a phase. -/
def LifePhase.place (s : State) (c : ObjId) : LifePhase → Option Frame → Prop
  | .calm _, none => True
  | .calm _, some f => f.pc = .tail ∨ f.method ≠ .exit ∧ f.pc = .inListener
  | .due k _ _, none => k ≠ .exit
  | .due k args _, some f =>
      k ≠ .exit ∧ (f.pc = .tail ∨ f.method = k ∧ f.args = args ∧ f.pc.undelivered = true)
  | .exit code signal, some f => f.method = .exit ∧ f.args = .status code signal ∧
      (f.pc = .containsKey ∨ f.pc = .setCode ∨ f.pc = .remove)
  | .coded code signal, some f => f.method = .exit ∧ f.args = .status code signal ∧
      f.pc = .setSignal
  | .signalled code signal, some f => f.method = .exit ∧ f.args = .status code signal ∧
      f.pc = .setExitedAt
  | .recorded code signal, some f => f.method = .exit ∧ f.args = .status code signal ∧
      (f.pc = .nullCheck ∨ f.pc = .call ∨ f.pc = .remove) ∧ (s.javaList f.pid).isSome
  | .told, some f => f.method = .exit ∧ (f.pc = .inListener ∨ f.pc = .remove) ∧
      (s.javaList f.pid).isSome
  | .removed known, some f => f.method = .exit ∧ f.pc = .erase ∧ (known = true → Absent s c)
  | .gone, none => Absent s c
  | .gone, some f => (f.pc = .tail ∨ f.pc = .containsKey ∧ f.method = .stdout) ∧ Absent s c
  | _, none => False

structure Fits (s : State) (c : ObjId) (a : LifePhase) : Prop where
  ended : isDone s c = a.ended
  place : a.place s c (s.own c)

/-! ### Marks -/

@[simp] theorem marks_append (os os' : List Event) :
    marks c (os ++ os') = marks c os ++ marks c os' := List.filterMap_append

theorem marks_quiet {as : List (Act JniCallback)} (hq : ∀ a ∈ as, isQuiet a = true) (c' : ObjId) :
    marks c (as.map (.act c')) = [] := by
  simp only [marks, List.filterMap_eq_nil_iff, List.mem_map]
  rintro e ⟨a, ha, rfl⟩
  have := hq a ha
  cases a with
  | invoke => cases this
  | _ => rfl

theorem marks_other {as : List (Act JniCallback)} {c' : ObjId} (hne : c' ≠ c) :
    marks c (as.map (.act c')) = [] := by
  simp only [marks, List.filterMap_eq_nil_iff, List.mem_map]
  rintro e ⟨a, -, rfl⟩
  cases a with
  | invoke => simp [Event.mark?, hne]
  | _ => rfl

/-- A callback raises one event at most. -/
theorem marks_callback {ch ch' : Child JniCallback} {i : Input} {as : List (Act JniCallback)}
    (hl : ch.obj.listeners = jniListeners) (h : ch.callbackHead i = some (ch', as)) :
    marks c (as.map (.act c)) =
      (raised ch.obj i).toList.map fun x => .raised x.1 (jniArgs x.2) := by
  obtain ⟨quiet, hq, rfl⟩ := callback_acts hl h
  rw [List.map_append, marks_append, marks_quiet hq, List.nil_append]
  cases raised ch.obj i with
  | none => rfl
  | some x => simp [marks, List.filterMap_cons, Event.mark?]

/-! ### What stays -/

theorem own_of {f : Frame} (hf : s.frame = some f) (hc : f.child = c) : s.own c = some f := by
  simp [State.own, hf, hc]

theorem own_none (h : ∀ f, s.frame = some f → f.child ≠ c) : s.own c = none := by
  cases hf : s.frame with
  | none => simp [State.own, hf]
  | some f => simp [State.own, hf, h f hf]

theorem Fits.of_frame {a : LifePhase} {f : Frame} (hf : s.frame = some f) (hc : f.child = c)
    (hended : isDone s c = a.ended) (hplace : a.place s c (some f)) : Fits s c a :=
  ⟨hended, own_of hf hc ▸ hplace⟩

/-- A child that has been in the Java map is not put in it again. -/
theorem Absent.later (x : Absent s c) (v : Inv s) (d : Distinct s) (hs : Step s l s' os) :
    Absent s' c := by
  obtain ⟨sp, hsp, hst, hb, hj⟩ := x
  obtain ⟨sp', hsp', hl⟩ := step_later v.objects v.calls hs hsp
  obtain ⟨hb', hpid⟩ := hl.born hb
  refine ⟨sp', hsp', hl.java hst, hb', ?_⟩
  rw [hpid]
  by_contra hne
  obtain ⟨e, he⟩ := Option.ne_none_iff_exists'.mp hne
  rcases java_back v hs he with he | ⟨t, mem, now, call, sp₁, -, hc, hch, hsp₁, hst₁, hret, hp₁⟩
  · rw [hj] at he
    cases he
  · have hb₁ := ((v.objects.reached e.child sp₁ hsp₁).1.started hret).1
    cases d.one _ _ _ _ hsp hsp₁ hb hb₁ hp₁.symm
    cases hsp.symm.trans hsp₁
    rw [hst] at hst₁
    cases hst₁

theorem isDone_step (v : Inv s) (hs : Step s l s' os) :
    isDone s' c = (isDone s c || (raisedBy c s l).any (·.1 = .exit)) := by
  cases hsp' : s'.objs c with
  | none =>
      have hnone := objs_none v hs hsp'
      rw [isDone, isDone, hsp', hnone, raisedBy_none hnone]
      rfl
  | some sp' =>
      rw [isDone, hsp', Option.any_some, step_done v.objects hs hsp']
      rfl

/-- A step in which nothing happens because of the child, and its callback stays where it is. -/
theorem Fits.stay {a : LifePhase} (x : Fits s c a) (hdone : isDone s' c = isDone s c)
    (hown : s'.own c = s.own c) (ha : Absent s c → Absent s' c)
    (hj : ∀ f, s.own c = some f → (s.javaList f.pid).isSome → (s'.javaList f.pid).isSome) :
    Fits s' c a := by
  refine ⟨hdone.trans x.ended, ?_⟩
  have hplace := x.place
  rw [hown]
  generalize s.own c = o at hplace hj
  cases a with
  | calm | due | exit | coded | signalled => cases o <;> exact hplace
  | recorded =>
      cases o with
      | none => exact hplace
      | some f => exact ⟨hplace.1, hplace.2.1, hplace.2.2.1, hj f rfl hplace.2.2.2⟩
  | told =>
      cases o with
      | none => exact hplace
      | some f => exact ⟨hplace.1, hplace.2.1, hj f rfl hplace.2.2⟩
  | removed =>
      cases o with
      | none => exact hplace
      | some f => exact ⟨hplace.1, hplace.2.1, ha ∘ hplace.2.2⟩
  | gone =>
      cases o with
      | none => exact ha hplace
      | some f => exact ⟨hplace.1, ha hplace.2⟩

/-! ### One step -/

/-- After its exit event a child raises nothing but what its stdout brings. -/
theorem raised_done {ch ch' : Child JniCallback} {i : Input} {as : List (Act JniCallback)}
    {k : JniCallback} {args : Args} (hr : Reached ch) (h : ch.callbackHead i = some (ch', as))
    (hk : raised ch.obj i = some (k, args)) (hd : done ch = true) : k = .stdout := by
  cases k with
  | stdout => rfl
  | exit =>
      rw [done_raised hr h hk] at hd
      cases hd
  | timeout =>
      rw [done, hr.armed (raised_timeout h hk).2] at hd
      cases hd
  | stderr =>
      cases i with
      | stderrCb nread buf =>
          simp only [Child.callbackHead, Option.ite_none_right_eq_some] at h
          rw [hr.flushed (Bool.and_eq_true_iff.mp hd).2] at h
          cases h.1
      | exitCb | stdoutCb =>
          simp only [raised, Option.ite_none_right_eq_some] at hk
          cases hk.2
      | _ => cases hk

/-- An event is raised, and its method called. -/
theorem Fits.raise {a : LifePhase} (x : Fits s c a) (v : Inv s) {sp : Spawn} {i : Input}
    {ch : Child JniCallback} {as : List (Act JniCallback)} {k : JniCallback} {args : Args}
    (hown : s.own c = none) (hsp : s.objs c = some sp)
    (hst : sp.child.callbackHead i = some (ch, as)) (hk : raised sp.child.obj i = some (k, args))
    (absent : Absent s c → Absent s' c) (pid : Int) :
    ∃ b, (lifeCycle p c).next a (.raised k (jniArgs args)) = some b ∧
      b.ended = (a.ended || decide (k = .exit)) ∧
      b.place s' c (some ⟨c, i, k, pid, jniArgs args, .containsKey⟩) := by
  have hr := (v.objects.reached c sp hsp).1
  have hplace := x.place
  rw [hown] at hplace
  have hended : done sp.child = a.ended := by rw [← x.ended, isDone, hsp, Option.any_some]
  have hdone (h : a.ended = true) : k = .stdout := raised_done hr hst hk (hended.trans h)
  -- before the exit, any event; after it, what stdout brings
  have raise {ended : Bool} (ha : a.ended = ended) :
      ∃ b, LifePhase.raise ended k (jniArgs args) = some b ∧
        b.ended = (ended || decide (k = .exit)) ∧
        b.place s' c (some ⟨c, i, k, pid, jniArgs args, .containsKey⟩) := by
    cases ended with
    | true =>
        obtain rfl := hdone ha
        exact ⟨.due .stdout (jniArgs args) true, rfl, rfl, by decide, .inr ⟨rfl, rfl, rfl⟩⟩
    | false =>
        cases k with
        | exit =>
            obtain ⟨code, signal, rfl⟩ := raised_exit hk
            exact ⟨.exit code signal, rfl, rfl, rfl, rfl, .inl rfl⟩
        | stdout | stderr | timeout =>
            exact ⟨.due _ (jniArgs args) false, rfl, rfl, by decide, .inr ⟨rfl, rfl, rfl⟩⟩
  cases a with
  | calm ended => exact raise rfl
  | due k' args' ended => exact raise rfl
  | gone =>
      obtain rfl := hdone rfl
      exact ⟨.gone, rfl, rfl, .inr ⟨rfl, rfl⟩, absent hplace⟩
  | _ => exact hplace.elim

section
variable {f : Frame} {a : LifePhase} (hf : s.frame = some f) (hc : f.child = c)
  (hplace : a.place s c (some f))
include hf hc hplace

/-- The method reads the map, or the listener. -/
theorem place_move {pc : JniPc} (v : Inv s) (hm : JniMove s f f.pc pc) :
    a.place s c (some { f with pc := pc }) := by
  generalize hpc : f.pc = pc₀ at hm
  cases hm with
  | contains hsome =>
      cases a with
      | due k args ended =>
          obtain ⟨hk, h | ⟨hm, hargs, -⟩⟩ := hplace
          · simp [hpc] at h
          · exact ⟨hk, .inr ⟨hm, hargs, Frame.found_undelivered f⟩⟩
      | exit code signal => exact ⟨hplace.1, hplace.2.1, .inr (.inl (if_pos hplace.1))⟩
      | gone =>
          obtain ⟨h | ⟨-, hm⟩, sp, hsp, -, -, hj⟩ := hplace
          · simp [hpc] at h
          · obtain ⟨sp₀, hsp₀, hborn, -⟩ := v.frames.obj f hf
            rw [hc] at hsp₀
            cases hsp.symm.trans hsp₀
            rw [(hborn (by rw [hm]; decide)).2, hj] at hsome
            cases hsome
      | _ => simp [LifePhase.place, hpc] at hplace
  | absent =>
      cases a with
      | due k args ended =>
          obtain ⟨hk, h | ⟨hm, -⟩⟩ := hplace
          · simp [hpc] at h
          · exact ⟨hk, .inl (if_neg (hm ▸ hk))⟩
      | exit code signal => exact ⟨hplace.1, hplace.2.1, .inr (.inr (if_pos hplace.1))⟩
      | gone =>
          obtain ⟨h | ⟨-, hm⟩, ha⟩ := hplace
          · simp [hpc] at h
          · exact ⟨.inl (if_neg (by rw [hm]; decide)), ha⟩
      | _ => simp [LifePhase.place, hpc] at hplace
  | listener =>
      cases a with
      | due k args ended =>
          obtain ⟨hk, h | ⟨hm, hargs, -⟩⟩ := hplace
          · simp [hpc] at h
          · exact ⟨hk, .inr ⟨hm, hargs, rfl⟩⟩
      | recorded code signal =>
          exact ⟨hplace.1, hplace.2.1, .inr (.inl rfl), hplace.2.2.2⟩
      | _ => simp [LifePhase.place, hpc] at hplace
  | noListener =>
      cases a with
      | due k args ended =>
          obtain ⟨hk, h | ⟨hm, -⟩⟩ := hplace
          · simp [hpc] at h
          · exact ⟨hk, .inl (if_neg (hm ▸ hk))⟩
      | recorded code signal =>
          exact ⟨hplace.1, hplace.2.1, .inr (.inr (if_pos hplace.1)), hplace.2.2.2⟩
      | _ => simp [LifePhase.place, hpc] at hplace

omit hc in
/-- The next field of the exit is written. -/
theorem place_write (v : Inv s) {now : Date} {w : Write} {pc : JniPc}
    (hw : f.write? now = some (w, pc)) (hsome : (s.javaList f.pid).isSome) :
    ∃ b, (lifeCycle p c).next a (.wrote p w) = some b ∧ b.ended = a.ended ∧
      b.place s c (some { f with pc := pc }) := by
  have hm := v.frames.ofExit f hf (Frame.write_pc hw).1
  have hdue {k : JniCallback} {args : JArgs} {ended : Bool} (ha : a = .due k args ended) :
      False := by
    subst ha
    obtain ⟨hk, h | ⟨hk', -⟩⟩ := hplace
    · have := (Frame.write_pc hw).1
      rw [h] at this
      cases this
    · exact hk (hk'.symm.trans hm)
  unfold Frame.write? at hw
  split at hw
  · rename_i code signal hpc hargs
    cases hw
    cases a with
    | exit code' signal' =>
        cases hargs.symm.trans hplace.2.1
        exact ⟨.coded code signal, by simp [lifeCycle], rfl, hm, hargs, rfl⟩
    | due => exact (hdue rfl).elim
    | _ => simp [LifePhase.place, hpc] at hplace
  · rename_i code signal hpc hargs
    cases hw
    cases a with
    | coded code' signal' =>
        cases hargs.symm.trans hplace.2.1
        exact ⟨.signalled code signal, by simp [lifeCycle], rfl, hm, hargs, rfl⟩
    | due => exact (hdue rfl).elim
    | _ => simp [LifePhase.place, hpc] at hplace
  · rename_i code signal hpc hargs
    cases hw
    cases a with
    | signalled code' signal' =>
        cases hargs.symm.trans hplace.2.1
        exact ⟨.recorded code signal, by simp [lifeCycle], rfl, hm, hargs, .inl rfl, hsome⟩
    | due => exact (hdue rfl).elim
    | _ => simp [LifePhase.place, hpc] at hplace
  · cases hw

omit hf hc in
/-- The listener is called. -/
theorem place_listener (hpc : f.pc = .call) {p' : PuppyId} (hp : f.method ≠ .timeout → p' = p)
    (hsome : (s.javaList f.pid).isSome) :
    ∃ b, (lifeCycle p c).next a (.heard p' f.method f.args) = some b ∧ b.ended = a.ended ∧
      b.place s c (some { f with pc := .inListener }) := by
  cases a with
  | due k args ended =>
      obtain ⟨hk, h | ⟨rfl, rfl, -⟩⟩ := hplace
      · simp [hpc] at h
      · refine ⟨.calm ended, if_pos ⟨rfl, rfl, ?_⟩, rfl, .inr ⟨hk, rfl⟩⟩
        by_cases ht : f.method = .timeout
        · exact .inl ht
        · exact .inr (hp ht)
  | recorded code signal =>
      obtain ⟨hm, hargs, -⟩ := hplace
      exact ⟨.told, if_pos ⟨hp (by rw [hm]; decide), hm, hargs⟩, rfl, hm, .inl rfl, hsome⟩
  | _ => simp [LifePhase.place, hpc] at hplace

/-- The entry is taken out of the Java map. -/
theorem place_remove (v : Inv s) (d : Distinct s) (hpc : f.pc = .remove) :
    ∃ b, (lifeCycle p c).next a (.removed ((s.javaList f.pid).map JavaEntry.child)) = some b ∧
      b.ended = a.ended ∧
      b.place { s with javaList := update s.javaList f.pid none } c
        (some { f with pc := .erase }) := by
  have hm := v.frames.ofExit f hf (by rw [hpc]; rfl)
  obtain ⟨sp, hsp, hborn, -⟩ := v.frames.obj f hf
  obtain ⟨hb, hpid⟩ := hborn (by rw [hm]; decide)
  rw [hc] at hsp
  cases hj : s.javaList f.pid with
  | none =>
      cases a with
      | exit code signal =>
          exact ⟨.removed false, rfl, rfl, hm, rfl, fun h => by cases h⟩
      | due k args ended =>
          obtain ⟨hk, h | ⟨hk', -⟩⟩ := hplace
          · simp [hpc] at h
          · exact absurd (hk'.symm.trans hm) hk
      | _ => simp [LifePhase.place, hpc, hj] at hplace
  | some e =>
      obtain ⟨sp', hsp', hst, -, hb', hpid'⟩ := v.entries.java f.pid e hj
      have he := d.one _ _ _ _ hsp' hsp hb' hb (hpid'.trans hpid)
      rw [he] at hsp'
      cases hsp.symm.trans hsp'
      have habsent : Absent { s with javaList := update s.javaList f.pid none } c :=
        ⟨sp, hsp, hst, hb, hpid ▸ update_self ..⟩
      cases a with
      | exit | recorded | told =>
          exact ⟨.removed true, if_pos he, rfl, hm, rfl, fun _ => habsent⟩
      | due k args ended =>
          obtain ⟨hk, h | ⟨hk', -⟩⟩ := hplace
          · simp [hpc] at h
          · exact absurd (hk'.symm.trans hm) hk
      | _ => simp [LifePhase.place, hpc] at hplace

omit hc in
/-- The entry is taken out of the native map. -/
theorem place_erase (v : Inv s) (hpc : f.pc = .erase) :
    ∃ b, (lifeCycle p c).next a .erased = some b ∧ b.ended = a.ended ∧
      b.place s c (some { f with pc := .tail }) := by
  have hm := v.frames.ofExit f hf (by rw [hpc]; rfl)
  cases a with
  | due k args ended =>
      obtain ⟨hk, h | ⟨hk', -⟩⟩ := hplace
      · simp [hpc] at h
      · exact absurd (hk'.symm.trans hm) hk
  | removed known =>
      cases known with
      | true => exact ⟨.gone, rfl, rfl, .inl rfl, hplace.2.2 rfl⟩
      | false => exact ⟨.calm true, rfl, rfl, .inl rfl⟩
  | _ => simp [LifePhase.place, hpc] at hplace

omit hf hc in
/-- The listener returns. -/
theorem place_returns (hpc : f.pc = .inListener) : a.place s c (some { f with pc := f.after }) := by
  cases a with
  | calm ended =>
      rcases hplace with h | ⟨hm, -⟩
      · simp [hpc] at h
      · exact .inl (if_neg hm)
  | told =>
      obtain ⟨hm, -, hsome⟩ := hplace
      exact ⟨hm, .inr (if_pos hm), hsome⟩
  | _ => simp [LifePhase.place, hpc, JniPc.undelivered, JniPc.hasFound] at hplace

omit hf hc in
/-- The callback is over. -/
theorem place_tail (hpc : f.pc = .tail) : a.place s c none := by
  cases a with
  | calm => trivial
  | due => exact hplace.1
  | gone => exact hplace.2
  | _ => simp [LifePhase.place, hpc] at hplace

end

/-- What a step does because of a child takes its life on, and the state follows. -/
theorem step_fits {a : LifePhase} (v : Inv s) (d : Distinct s)
    (hp : ∀ sp, s.objs c = some sp → sp.puppy = p) (hret : l.returns = true) (x : Fits s c a)
    (hs : Step s l s' os) :
    ∃ b, (lifeCycle p c).run a (marks c os) = some b ∧ Fits s' c b := by
  have absent : Absent s c → Absent s' c := fun h => h.later v d hs
  -- nothing happens because of the child
  have quiet (hm : marks c os = []) (hr : raisedBy c s l = none) (hown : s'.own c = s.own c)
      (hj : ∀ f, s.own c = some f → (s.javaList f.pid).isSome → (s'.javaList f.pid).isSome) :
      ∃ b, (lifeCycle p c).run a (marks c os) = some b ∧ Fits s' c b := by
    refine ⟨a, by rw [hm]; rfl, x.stay ?_ hown absent hj⟩
    rw [isDone_step v hs, hr]
    exact Bool.or_false _
  have still (hm : marks c os = []) (hr : raisedBy c s l = none) (hf : s'.frame = s.frame)
      (hj : s'.javaList = s.javaList) :
      ∃ b, (lifeCycle p c).run a (marks c os) = some b ∧ Fits s' c b :=
    quiet hm hr (by rw [State.own, State.own, hf]) fun _ _ h => hj ▸ h
  -- the callback of another child goes on
  have other {f : Frame} (hf : s.frame = some f) (hne : f.child ≠ c)
      (hf' : ∀ g, s'.frame = some g → g.child = f.child) (hm : marks c os = [])
      (hr : raisedBy c s l = none) :
      ∃ b, (lifeCycle p c).run a (marks c os) = some b ∧ Fits s' c b := by
    have hown : s.own c = none := own_none fun g hg => by cases hf.symm.trans hg; exact hne
    refine quiet hm hr ?_ fun f h => by rw [hown] at h; cases h
    rw [hown]
    exact own_none fun g hg => hf' g hg ▸ hne
  -- the callback of the child goes on
  have moved {f : Frame} {pc : JniPc} {b : LifePhase} (hc : f.child = c)
      (hf' : s'.frame = some { f with pc := pc }) (hr : raisedBy c s l = none)
      (hm : (lifeCycle p c).run a (marks c os) = some b) (hended : b.ended = a.ended)
      (hplace : b.place s' c (some { f with pc := pc })) :
      ∃ b, (lifeCycle p c).run a (marks c os) = some b ∧ Fits s' c b := by
    refine ⟨b, hm, .of_frame hf' hc ?_ hplace⟩
    rw [isDone_step v hs, hr, x.ended, hended]
    exact Bool.or_false _
  have place {f : Frame} (hf : s.frame = some f) (hc : f.child = c) : a.place s c (some f) :=
    own_of hf hc ▸ x.place
  -- the entry that the callback of the child finds
  have owner {f : Frame} {e : JavaEntry} (hf : s.frame = some f) (hc : f.child = c)
      (he : s.javaList f.pid = some e) (hm : f.method ≠ .timeout) : e.puppy = p := by
    obtain ⟨sp, hsp, -⟩ := v.frames.obj f hf
    exact (d.owner v hf hm hsp he).trans (hp sp (hc ▸ hsp))
  cases hs with
  | javaPut =>
      refine quiet (by split <;> rfl) rfl rfl fun f _ h => ?_
      dsimp only
      rw [Function.update_apply]
      split
      · rfl
      · exact h
  | spawn _ _ _ hst => exact still (marks_quiet (spawnStep_quiet hst) _) rfl rfl rfl
  | @callback c₁ i sp ch as hnone hsp hst hinv =>
      have hl := (v.objects.reached c₁ sp hsp).2
      rw [invoked_eq hl hst, Option.map_eq_none_iff] at hinv
      refine still ?_ ?_ rfl rfl
      · rw [List.map_append, marks_append, marks_quiet (callbackTail_quiet ch i), List.append_nil]
        by_cases hc : c₁ = c
        · rw [hc, marks_callback hl hst, hinv]
          rfl
        · exact marks_other hc
      · by_cases hc : c₁ = c
        · rw [← hc, raisedBy_callback hsp, hinv]
        · simp [raisedBy, hc]
  | @callbackInvoke c₁ i sp ch as k args pid hnone hsp hst hinv =>
      have hl := (v.objects.reached c₁ sp hsp).2
      rw [invoked_eq hl hst, Option.map_eq_some_iff] at hinv
      obtain ⟨⟨k, args⟩, hk, ⟨⟩⟩ := hinv
      have hown : s.own c = none := own_none fun f hf => by
        rw [hnone] at hf
        cases hf
      by_cases hc : c₁ = c
      · subst hc
        obtain ⟨b, hb, hended, hplace⟩ := x.raise (p := p) v hown hsp hst hk absent _
        refine ⟨b, ?_, .of_frame rfl rfl ?_ hplace⟩
        · rw [marks_callback hl hst, hk]
          simpa using hb
        · rw [isDone_step v (.callbackInvoke hnone hsp hst
            (by rw [invoked_eq hl hst, hk]; rfl)), raisedBy_callback hsp, hk, hended, x.ended]
          rfl
      · refine quiet (marks_other hc) (by simp [raisedBy, hc]) ?_ fun f h => by
          rw [hown] at h
          cases h
        rw [hown]
        exact own_none fun g hg => by cases hg; exact hc
  | @jniMove now f pc hf hm =>
      by_cases hc : f.child = c
      · exact moved hc rfl rfl rfl rfl (place_move hf hc (place hf hc) v hm)
      · exact other hf hc (fun g hg => by cases hg; rfl) rfl rfl
  | @write now f w pc e hf hw he =>
      by_cases hc : f.child = c
      · have hm := v.frames.ofExit f hf (Frame.write_pc hw).1
        obtain ⟨b, hb, hended, hplace⟩ :=
          place_write hf (place hf hc) v hw (by rw [he]; rfl)
        refine moved hc rfl rfl ?_ hended hplace
        rw [marks, List.filterMap_cons, Event.mark?, if_pos hc,
          owner hf hc he (by rw [hm]; decide)]
        simpa using hb
      · exact other hf hc (fun g hg => by cases hg; rfl) (by simp [marks, Event.mark?, hc]) rfl
  | @listener now f e lis hf hpc he hl =>
      by_cases hc : f.child = c
      · obtain ⟨b, hb, hended, hplace⟩ :=
          place_listener (place hf hc) hpc (owner hf hc he) (by rw [he]; rfl)
        refine moved hc rfl rfl ?_ hended hplace
        rw [marks, List.filterMap_cons, Event.mark?, if_pos hc]
        simpa using hb
      · exact other hf hc (fun g hg => by cases hg; rfl) (by simp [marks, Event.mark?, hc]) rfl
  | nullPointer hf hpc hnone => exact (d.not_nullPointer v hf hpc hnone).elim
  | @remove now f hf hpc =>
      by_cases hc : f.child = c
      · obtain ⟨b, hb, hended, hplace⟩ := place_remove (p := p) hf hc (place hf hc) v d hpc
        refine moved hc rfl rfl ?_ hended hplace
        rw [marks, List.filterMap_cons, Event.mark?, if_pos hc]
        simpa using hb
      · exact other hf hc (fun g hg => by cases hg; rfl) (by simp [marks, Event.mark?, hc]) rfl
  | @erase now f hf hpc =>
      by_cases hc : f.child = c
      · obtain ⟨b, hb, hended, hplace⟩ := place_erase (p := p) hf (place hf hc) v hpc
        refine moved hc rfl rfl ?_ hended hplace
        rw [marks, List.filterMap_cons, Event.mark?, if_pos hc]
        simpa using hb
      · exact other hf hc (fun g hg => by cases hg; rfl) (by simp [marks, Event.mark?, hc]) rfl
  | @tail now f sp hf hpc =>
      have hm := marks_quiet (c := c) (callbackTail_quiet sp.child f.input) f.child
      by_cases hc : f.child = c
      · refine ⟨a, by rw [hm]; rfl, x.ended, ?_⟩
        exact place_tail (place hf hc) hpc
      · exact other hf hc (fun g hg => by cases hg) hm rfl
  | @listenerReturns f hf hpc =>
      by_cases hc : f.child = c
      · exact moved hc rfl rfl rfl rfl (place_returns (place hf hc) hpc)
      · exact other hf hc (fun g hg => by cases hg; rfl) rfl rfl
  | listenerThrows => cases hret
  | _ => exact still rfl rfl rfl rfl

/-! ### Whole runs -/

/-- The phases between two callbacks. -/
def LifePhase.rests : LifePhase → Bool
  | .calm _ | .due _ _ _ | .gone => true
  | _ => false

/-- The child is that of `p` throughout. -/
theorem run_owned {puppies : PuppyId → List (Option JString) × StringTable}
    {C : State → Label → Prop} {h : History Label Event}
    (r : machine.RunWhere C (.init puppies) h s)
    (hp : ∀ sp, s.objs c = some sp → sp.puppy = p) :
    machine.RunWhere (fun s l => C s l ∧ ∀ sp, s.objs c = some sp → sp.puppy = p)
      (.init puppies) h s := by
  induction r with
  | nil => exact .nil
  | @snoc h s s' l os r hC hs ih =>
      have v := run_inv r
      have hp₀ (sp : Spawn) (hsp : s.objs c = some sp) : sp.puppy = p := by
        obtain ⟨sp', hsp', hl⟩ := step_later v.objects v.calls (step_inv hs).2 hsp
        exact hl.puppy.symm.trans (hp sp' hsp')
      exact .snoc (ih hp₀) ⟨hC, hp₀⟩ hs

theorem run_fits {puppies : PuppyId → List (Option JString) × StringTable}
    {h : History Label Event}
    (r : machine.RunWhere (fun s l => orderly s l = true) (.init puppies) h s)
    (hp : ∀ sp, s.objs c = some sp → sp.puppy = p) :
    ∃ a, (lifeCycle p c).run (.calm false) (marks c h.outputs) = some a ∧ Fits s c a := by
  have init : Fits (.init puppies) c (.calm false) := ⟨rfl, trivial⟩
  refine (run_owned r hp).monitored (lifeCycle p c) (Event.mark? c) (fun s a => Fits s c a) init ?_
  intro h s s' l os a r hC hs x
  have d := run_distinct (r.mono fun _ _ h => orderly_fresh h.1)
  exact step_fits (run_inv r) d hC.2 (Bool.and_eq_true_iff.mp hC.1).2 x (step_inv hs).2

/-- **The life of a child.**  In every run in which no pid is reused and the listeners return, with
any number of threads and children, and listeners that call back, what happens because of a child is
a life of a child of its `DoryProcess`; its exit event has been raised when the child has exited and
its stderr has ended; and between two callbacks no exit is half recorded and no entry half
removed. -/
theorem life_cycle {puppies : PuppyId → List (Option JString) × StringTable}
    {h : History Label Event}
    (r : machine.RunWhere (fun s l => orderly s l = true) (.init puppies) h s) {sp : Spawn}
    (hsp : s.objs c = some sp) :
    ∃ a, (lifeCycle sp.puppy c).run (.calm false) (marks c h.outputs) = some a ∧
      a.ended = (sp.child.obj.exited && sp.child.obj.stderrFlushed) ∧
      (s.frame = none → a.rests = true) := by
  obtain ⟨a, ha, x⟩ := run_fits (p := sp.puppy) r fun sp' hsp' => by
    cases hsp.symm.trans hsp'
    rfl
  refine ⟨a, ha, ?_, fun hf => ?_⟩
  · rw [← x.ended, isDone, hsp]
    rfl
  · have hplace := x.place
    rw [own_none fun f hf' => by rw [hf] at hf'; cases hf'] at hplace
    cases a <;> first | rfl | exact hplace.elim

/-- A life to its end, and stdout after it. -/
theorem life_cycle_example : ∃ h s sp,
    machine.RunWhere (fun s l => orderly s l = true) (.init examplePuppies) h s ∧
    s.objs 0 = some sp ∧ marks 0 h.outputs = [.raised .exit (.status 3 0), .wrote 0 (.code 3),
      .wrote 0 (.signal 0), .wrote 0 (.exitedAt 0), .heard 0 .exit (.status 3 0),
      .removed (some 0), .erased, .raised .stdout (.bytes [33])] ∧
    ∃ a, (lifeCycle sp.puppy 0).run (.calm false) (marks 0 h.outputs) = some a := by
  have r := Machine.execWhere_run (M := machine) (C := orderly) (s := .init examplePuppies)
    writesAfterExit rfl
  obtain ⟨a, ha, -⟩ := life_cycle (c := 0) r rfl
  exact ⟨_, _, _, r, rfl, rfl, a, ha⟩

/-- With a pid reused between two writes it is no life: the signal goes to another
`DoryProcess`. -/
example : ∃ h s, machine.Run (.init examplePuppies) h s ∧
    (lifeCycle 0 0).run (.calm false) (marks 0 h.outputs) = none :=
  ⟨_, _, Machine.exec_run (M := machine) (s := .init examplePuppies)
    (startsWith (.caller 0) 0 7 ++
      [.callback 0 (.stderrCb UV_EOF []), .callback 0 (.exitCb 0 9), .jni 0, .jni 0] ++
      startsWith (.caller 1) 1 7 ++ [.jni 0]) rfl, rfl⟩

/-! ### After the exit is recorded -/

def Mark.isHeard : Mark → Bool
  | .heard _ _ _ => true
  | _ => false

/-- The phases from the first write of an exit on. -/
def LifePhase.closing (code : Int) : LifePhase → Prop
  | .coded code' _ | .signalled code' _ | .recorded code' _ => code' = code
  | .told | .gone => True
  | .removed known => known = true
  | _ => False

def LifePhase.toHear : LifePhase → Nat
  | .coded _ _ | .signalled _ _ | .recorded _ _ => 1
  | _ => 0

/-- From there on the exit listener is the only one that may be called, and once. -/
theorem closing_next {code : Int} {a b : LifePhase} {x : Mark} (ha : a.closing code)
    (h : (lifeCycle p c).next a x = some b) :
    (b.closing code ∧ b.toHear + (if x.isHeard then 1 else 0) ≤ a.toHear) ∧
      (x.isHeard = true → ∃ signal, x = .heard p .exit (.status code signal)) := by
  have quiet (hx : x.isHeard = false) (hb : b.closing code) (hle : b.toHear ≤ a.toHear) :
      (b.closing code ∧ b.toHear + (if x.isHeard then 1 else 0) ≤ a.toHear) ∧
        (x.isHeard = true → ∃ signal, x = .heard p .exit (.status code signal)) := by
    rw [hx]
    exact ⟨⟨hb, hle⟩, fun h => by cases h⟩
  simp only [lifeCycle] at h
  split at h
  case h_1 | h_2 | h_3 | h_4 | h_8 | h_9 => exact ha.elim
  case h_5 | h_6 =>
      rw [Option.ite_none_right_eq_some] at h
      cases h.2
      exact quiet rfl ha le_rfl
  case h_7 =>
      rw [Option.ite_none_right_eq_some] at h
      obtain ⟨⟨rfl, rfl, rfl⟩, h⟩ := h
      cases h
      obtain rfl : _ = code := ha
      exact ⟨⟨trivial, le_rfl⟩, fun _ => ⟨_, rfl⟩⟩
  case h_10 | h_11 =>
      rw [Option.ite_none_right_eq_some] at h
      cases h.2
      exact quiet rfl rfl (Nat.zero_le _)
  case h_12 =>
      cases h
      obtain rfl : _ = true := ha
      exact quiet rfl trivial le_rfl
  case h_13 =>
      cases h
      exact quiet rfl trivial le_rfl
  case h_14 => cases h

theorem LifePhase.closing.ended {code : Int} {a : LifePhase} (h : a.closing code) :
    a.ended = true := by
  cases a <;> first | rfl | exact h.elim

/-- The code is written first, and to the `DoryProcess` of the child. -/
theorem writes_code {a b : LifePhase} {p' : PuppyId} {code : Int}
    (h : (lifeCycle p c).next a (.wrote p' (.code code)) = some b) :
    p' = p ∧ ∃ signal, b = .coded code signal := by
  cases a with
  | exit code' signal =>
      simp only [lifeCycle, Option.ite_none_right_eq_some, Option.some.injEq,
        Write.code.injEq] at h
      obtain ⟨⟨rfl, rfl⟩, rfl⟩ := h
      exact ⟨rfl, signal, rfl⟩
  | coded code' signal => simp [lifeCycle] at h
  | _ => cases h

/-- **After the exit is recorded.**  In every run in which no pid is reused and the listeners
return, once `jniExit` has begun to write the exit of a child, one listener at most is still called
because of this child: the exit listener of its `DoryProcess`, with the code that was written. -/
theorem exit_closes {puppies : PuppyId → List (Option JString) × StringTable}
    {h : History Label Event}
    (r : machine.RunWhere (fun s l => orderly s l = true) (.init puppies) h s)
    {pre post : List Event} {p' : PuppyId} {code : Int}
    (e : h.outputs = pre ++ .wrote p' (.code code) c :: post) :
    (marks c post).countP Mark.isHeard ≤ 1 ∧ ∃ sp, s.objs c = some sp ∧ sp.puppy = p' ∧
      ∀ x ∈ marks c post, x.isHeard = true →
        ∃ signal, x = .heard p' .exit (.status code signal) := by
  obtain ⟨p, hp⟩ : ∃ p, ∀ sp, s.objs c = some sp → sp.puppy = p := by
    cases s.objs c with
    | none => exact ⟨p', fun sp h => by cases h⟩
    | some sp => exact ⟨sp.puppy, fun sp' h => by cases h; rfl⟩
  obtain ⟨a, ha, x⟩ := run_fits r hp
  -- the life up to the write, the write, and the rest
  have hmarks : marks c h.outputs = marks c pre ++ .wrote p' (.code code) :: marks c post := by
    rw [e, marks_append, marks, marks, marks, List.filterMap_cons, Event.mark?, if_pos rfl]
  rw [hmarks, Monitor.run_append, Option.bind_eq_some_iff] at ha
  obtain ⟨a₀, -, ha⟩ := ha
  rw [Monitor.run_cons, Option.bind_eq_some_iff] at ha
  obtain ⟨a₁, hwrite, ha⟩ := ha
  obtain ⟨rfl, signal, rfl⟩ := writes_code hwrite
  have hclosing : (LifePhase.coded code signal).closing code := rfl
  have hcount := Monitor.countP_le LifePhase.toHear
    (fun hP h => (closing_next hP h).1) hclosing ha
  obtain ⟨hend, hheard⟩ := Monitor.later
    (fun hP h => ⟨(closing_next hP h).1.1, (closing_next hP h).2⟩) hclosing ha
  refine ⟨(Nat.le_add_right _ _).trans hcount, ?_⟩
  have hdone := x.ended.trans hend.ended
  rw [isDone, Option.any_eq_true] at hdone
  obtain ⟨sp, hsp, -⟩ := hdone
  exact ⟨sp, hsp, hp sp hsp, hheard⟩

theorem exit_closes_example : ∃ h s pre post,
    machine.RunWhere (fun s l => orderly s l = true) (.init examplePuppies) h s ∧
    h.outputs = pre ++ .wrote 0 (.code 3) 0 :: post ∧
    (marks 0 post).countP Mark.isHeard ≤ 1 := by
  obtain ⟨h, s, r, hmem⟩ : ∃ h s,
      machine.RunWhere (fun s l => orderly s l = true) (.init examplePuppies) h s ∧
      Event.wrote 0 (.code 3) 0 ∈ h.outputs :=
    ⟨_, _, Machine.execWhere_run (M := machine) (C := orderly) (s := .init examplePuppies)
      writesAfterExit rfl, List.mem_of_elem_eq_true rfl⟩
  obtain ⟨pre, post, e⟩ := List.append_of_mem hmem
  exact ⟨h, s, pre, post, r, e, (exit_closes r e).1⟩

end Dorypuppy.Manager

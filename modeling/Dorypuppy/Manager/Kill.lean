import Dorypuppy.Manager.Signals

/-!
# Manager — whom `kill` reaches

`DoryProcess.pid` outlives the child: it is kept after the exit event and after a `start()` that
throws, and `kill` asks only whether it is 0 and whether it is a key of the native map.
`isRunning`, next to it, asks for `exitedAt` too.  When the operating system gives the pid to the
child of another `DoryProcess`, `kill` reaches that child (`kill_other`).

`kill_own`: as long as no process is given a pid that some other `DoryProcess` still holds, in its
field or in a call under way, `kill` signals a child of the `DoryProcess` it is called on or a pid
nobody has.  `start()`, `kill` and the callbacks come in any order; only the two accesses of `kill`
to the native map are one step here.
-/

namespace Dorypuppy.Manager

open Child (Reached born done)
open Support (Machine History)
open Function (update update_self update_of_ne)

variable {s s' : State} {l : Label} {os : List Event}

/-- A call has a pid in hand: that of the child it has started, the one it will write to the
`DoryProcess`, or the one it will signal. -/
def Carries (s : State) (call : Call) (q : Int) : Prop :=
  match call.pc with
  | .spawning c | .javaPut c _ =>
      ∃ sp, s.objs c = some sp ∧ born sp.child = true ∧ sp.child.obj.process.pid = q
  | .setPid pid | .killCount pid _ | .killDeref pid _ => pid = q
  | _ => False

/-- A `DoryProcess` holds a pid in its field, or a call on it has the pid in hand. -/
def Holds (s : State) (p : PuppyId) (q : Int) : Prop :=
  (s.puppies p).pid = q ∨ ∃ t call, s.calls t = some call ∧ call.puppy = p ∧ Carries s call q

/-- No process is given a pid that another `DoryProcess` holds. -/
def PidKept (s : State) : Label → Prop
  | .spawn t (.uvSpawn (.ok pid)) => ∀ call, s.calls t = some call →
      ∀ p, p ≠ call.puppy → ¬ Holds s p pid
  | .otherStarts pid => ∀ p, ¬ Holds s p pid
  | _ => True

/-- `processList.count(pid)` and `processList[pid]` come without another step between them. -/
def KillWhole (s : State) (l : Label) : Prop :=
  ∀ t call pid g, s.calls t = some call → call.pc = .killDeref pid g →
    ∃ mem now, l = .step t mem now

/-- The pid is not in use, or it is that of a child of the `DoryProcess`. -/
def Own (s : State) (p : PuppyId) (q : Int) : Prop :=
  s.os q = none ∨ ∃ c sp, s.os q = some (.child c) ∧ s.objs c = some sp ∧ sp.puppy = p

/-! ### What is held -/

theorem carries_back (ok : Objects s) (hs : Step s l s' os) {call : Call} {q : Int}
    (h : Carries s' call q) : Carries s call q ∨
      ∃ t pid call' c, l = .spawn t (.uvSpawn (.ok pid)) ∧ s.calls t = some call' ∧
        call'.pc.child? = some c ∧ call.pc.child? = some c ∧ q = pid := by
  have back {c : ObjId} (hch : call.pc.child? = some c)
      (h : ∃ sp, s'.objs c = some sp ∧ born sp.child = true ∧ sp.child.obj.process.pid = q) :
      (∃ sp, s.objs c = some sp ∧ born sp.child = true ∧ sp.child.obj.process.pid = q) ∨
      ∃ t pid call' c, l = .spawn t (.uvSpawn (.ok pid)) ∧ s.calls t = some call' ∧
        call'.pc.child? = some c ∧ call.pc.child? = some c ∧ q = pid := by
    obtain ⟨sp', hsp', hb, hq⟩ := h
    rcases born_back ok hs hsp' hb with ⟨sp, hsp, hb', hp⟩ | ⟨t, pid, call', rfl, hc, hpc, hp⟩
    · exact .inl ⟨sp, hsp, hb', hp.trans hq⟩
    · exact .inr ⟨t, pid, call', c, rfl, hc, by rw [hpc]; rfl, hch, hq.symm.trans hp⟩
  cases hpc : call.pc with
  | spawning c | javaPut c pid =>
      simp only [Carries, hpc] at h ⊢
      have := back (by rw [hpc]; rfl) h
      rwa [hpc] at this
  | setPid | killCount | killDeref => exact .inl (by simpa [Carries, hpc] using h)
  | _ => simp [Carries, hpc] at h

/-- `pid` is what it was, or a `start()` has written it. -/
theorem pid_back (hs : Step s l s' os) (p : PuppyId) : (s'.puppies p).pid = (s.puppies p).pid ∨
    ∃ t mem now call q, l = .step t mem now ∧ s.calls t = some call ∧ call.puppy = p ∧
      call.pc = .setPid q ∧ (s'.puppies p).pid = q ∧
      s'.calls t = some { call with pc := .setStartedAt q } := by
  cases step_puppy hs p with
  | same h => exact .inl (by rw [h])
  | set _ h => exact .inl (by rw [h, DoryProcess.apply_pid])
  | timeout _ _ _ _ h | startedAt h => exact .inl (by rw [h]; rfl)
  | @pid t mem now call q hl hc hp hpc h hc' =>
      exact .inr ⟨t, mem, now, call, q, hl, hc, hp, hpc, by rw [h]; rfl, hc'⟩
  | @exit now f e w pc _ _ hw _ _ h =>
      refine .inl ?_
      rw [h, DoryProcess.write_pid _ fun pid => ?_]
      unfold Frame.write? at hw
      split at hw <;> cases hw <;> simp

theorem field_back (hs : Step s l s' os) {p : PuppyId} {q : Int}
    (h : (s'.puppies p).pid = q) : Holds s p q := by
  rcases pid_back hs p with hp | ⟨t, _, _, call, q', -, hc, hcp, hpc, hp, -⟩
  · exact .inl (hp.symm.trans h)
  · exact .inr ⟨t, call, hc, hcp, by rw [Carries, hpc]; exact hp.symm.trans h⟩

/-- What is held after a step was held before, or is the pid that `uv_spawn` has just given to a
child of the `DoryProcess`. -/
theorem holds_back (v : Inv s) (hs : Step s l s' os) {p : PuppyId} {q : Int}
    (h : Holds s' p q) : Holds s p q ∨
      ∃ t pid call, l = .spawn t (.uvSpawn (.ok pid)) ∧ s.calls t = some call ∧
        call.puppy = p ∧ q = pid := by
  rcases h with h | ⟨t', call', hc', rfl, hq⟩
  · exact .inl (field_back hs h)
  -- a call that was there before
  have old (hc : s.calls t' = some call') : Holds s call'.puppy q ∨
      ∃ t pid call, l = .spawn t (.uvSpawn (.ok pid)) ∧ s.calls t = some call ∧
        call.puppy = call'.puppy ∧ q = pid := by
    rcases carries_back v.objects hs hq with hq | ⟨t, pid, call, c, rfl, hcall, hch, hch', hp⟩
    · exact .inl (.inr ⟨t', call', hc, rfl, hq⟩)
    · -- the only call on this object
      cases v.calls.one t t' call call' c hcall hc hch hch'
      cases hcall.symm.trans hc
      exact .inr ⟨_, pid, _, rfl, hcall, rfl, hp⟩
  rcases call_back hs hc' with hc | ⟨p, api, -, -, rfl⟩ | ⟨mem, now, call, rfl, hc, hcall, hm⟩
  · exact old hc
  · cases api <;> exact absurd hq (by simp [Carries, Api.begin])
  · -- the call that goes on had the pid in hand, unless it has read it from the field
    have hcp : call'.puppy = call.puppy := by rw [hcall]
    have here (h : Carries s call q) : Holds s call'.puppy q := .inr ⟨t', call, hc, hcp.symm, h⟩
    rcases carries_back v.objects hs hq with hq | ⟨_, _, _, _, hl, -⟩
    · refine .inl ?_
      generalize hpc : call.pc = pc at hm
      generalize hpc' : call'.pc = pc' at hm
      simp only [Carries, hpc'] at hq
      cases hm with
      | setTimeout | setPid | check => exact hq.elim
      | create =>
          obtain ⟨sp, hsp, -⟩ := hq
          exact absurd (v.objects.lt hsp) (lt_irrefl _)
      | native | failed => exact here (by rw [Carries, hpc]; exact hq)
      | @java c pid hpos =>
          obtain ⟨sp, hsp, -⟩ := v.calls.works t' call c hc (by rw [hpc]; rfl)
          obtain ⟨-, -, hret, hpid⟩ := v.calls.javaPut hc hpc hsp hpos
          have hb := ((v.objects.reached c sp hsp).1.started hret).1
          exact here (by rw [Carries, hpc]; exact ⟨sp, hsp, hb, hpid.trans hq⟩)
      | read => exact .inl (hcp ▸ hq)
      | count => exact here (by rw [Carries, hpc]; exact hq)
    · cases hl

/-- **A held pid is one's own**, or nobody's. -/
theorem run_own {puppies : PuppyId → List (Option JString) × StringTable}
    {h : History Label Event} (r : machine.RunWhere PidKept (.init puppies) h s) {p : PuppyId}
    {q : Int} (hq : Holds s p q) : Own s p q := by
  revert p q
  refine r.inv (fun _ s => ∀ {p q}, Holds s p q → Own s p q) (fun _ => .inl rfl) ?_
  intro h s s' l os r hC hs ih p q hq'
  have v := run_inv r
  obtain ⟨-, hs⟩ := step_inv hs
  -- a pid that stays with whom it was
  have stay (hq : Holds s p q) (hos : s'.os q = s.os q) : Own s' p q := by
    rcases ih hq with hn | ⟨c, sp, hc, hsp, hp⟩
    · exact .inl (hos.trans hn)
    · obtain ⟨sp', hsp', hl⟩ := step_later v.objects v.calls hs hsp
      exact .inr ⟨c, sp', hos.trans hc, hsp', hl.puppy.trans hp⟩
  rcases holds_back v hs hq' with hq | ⟨t, pid, call, rfl, hcall, rfl, rfl⟩
  · cases hs with
    | @spawn t i call c sp ch as hcall hpc hsp hst hfree =>
        rcases pidsAfter_cases s c sp.child.obj i q with hos | ⟨pid, rfl, rfl⟩ | ⟨-, -, hos⟩
        · exact stay hq hos
        · -- the pid was held, so the child is one of the same `DoryProcess`
          obtain ⟨hp, -⟩ := v.calls.spawning hcall hpc hsp
          have hcp : p = call.puppy := by
            by_contra hne
            exact hC call hcall p hne hq
          exact .inr ⟨c, _, update_self .., update_self .., hp.trans hcp.symm⟩
        · exact .inl hos
    | @callback c i sp ch as _ hsp hst | @callbackInvoke c i sp ch as _ _ _ _ hsp hst =>
        rcases pidsAfter_cases s c sp.child.obj i q with hos | ⟨pid, rfl, -⟩ | ⟨-, -, hos⟩
        · exact stay hq hos
        · cases hst
        · exact .inl hos
    | @otherStarts pid hfree =>
        refine stay hq (update_of_ne ?_ _ _)
        rintro rfl
        exact hC p hq
    | @otherEnds pid =>
        by_cases hpid : q = pid
        · exact .inl (by dsimp only; rw [hpid, update_self])
        · exact stay hq (update_of_ne hpid _ _)
    | _ => exact stay hq rfl
  · -- the pid `uv_spawn` has just given
    cases hs with
    | @spawn t i call c sp ch as hcall' hpc hsp hst hfree =>
        cases hcall.symm.trans hcall'
        obtain ⟨hp, -⟩ := v.calls.spawning hcall hpc hsp
        exact .inr ⟨c, _, update_self .., update_self .., hp⟩

/-! ### What `kill` finds -/

/-- A place of `kill`. -/
def CallPc.ofKill : CallPc → Bool
  | .killCheck _ | .killRead _ | .killCount _ _ | .killDeref _ _ => true
  | _ => false

/-- What a step of a `kill` does. -/
inductive KillStep (s s' : State) (t : Tid) (call : Call) : List Event → Prop where
  | move {pc'} : KillMove s call call.pc pc' →
      s' = { s with calls := update s.calls t (pc'.map fun pc => { call with pc := pc }) } →
      KillStep s s' t call []
  | found {pid g e} : call.pc = .killDeref pid g → s.nativeList pid = some (some e) →
      s' = { s with calls := update s.calls t none } →
      KillStep s s' t call [.killed call.puppy e.copy.process.pid g e.child]
  | null {pid g} : call.pc = .killDeref pid g → (s.nativeList pid).join = none →
      KillStep s s' t call [.nullEntry call.puppy pid]

theorem kill_step {t : Tid} {mem : Uninit} {now : Date} {call : Call}
    (hs : Step s (.step t mem now) s' os) (hc : s.calls t = some call)
    (hk : call.pc.ofKill = true) : KillStep s s' t call os := by
  cases hs with
  | killMove hc' hm =>
      cases hc.symm.trans hc'
      exact .move hm rfl
  | killDeref hc' hpc he =>
      cases hc.symm.trans hc'
      exact .found hpc he rfl
  | nullDeref hc' hpc hnone =>
      cases hc.symm.trans hc'
      exact .null hpc hnone
  | setTimeout hc' hpc | create hc' hpc | nativePut hc' hpc | spawnFailed hc' hpc
  | javaThrow hc' hpc | javaPut hc' hpc | setPid hc' hpc | setStartedAt hc' hpc =>
      cases hc.symm.trans hc'
      rw [hpc] at hk
      cases hk

/-- A `kill` that has counted the entry finds it. -/
def KillFinds (s : State) : Prop :=
  ∀ t call pid g, s.calls t = some call → call.pc = .killDeref pid g →
    ∃ e, s.nativeList pid = some (some e)

theorem run_killFinds {puppies : PuppyId → List (Option JString) × StringTable}
    {h : History Label Event} (r : machine.RunWhere KillWhole (.init puppies) h s) :
    KillFinds s := by
  refine r.inv (fun _ s => KillFinds s) (fun t call pid g hc => by cases hc) ?_
  intro h s s' l os r hC hs ih t' call' pid' g' hc' hpc'
  have v := run_inv r
  obtain ⟨hcr, hs⟩ := step_inv hs
  rcases call_back hs hc' with hc | ⟨p, api, -, -, rfl⟩ | ⟨mem, now, call, rfl, hc, -, hm⟩
  · -- the call that was there has made this step itself
    obtain ⟨mem, now, rfl⟩ := hC t' call' pid' g' hc hpc'
    cases kill_step hs hc (by rw [hpc']; rfl) with
    | move hm =>
        rw [hpc'] at hm
        cases hm
    | found _ _ hs' =>
        subst hs'
        exact absurd rfl (update_none hc').1
    | null hpc hnone =>
        obtain ⟨e, he⟩ := ih _ _ _ _ hc hpc
        rw [he] at hnone
        cases hnone
  · cases api <;> cases hpc'
  · rw [hpc'] at hm
    generalize hpc : call.pc = pc at hm
    cases hm with
    | count hkey =>
        have hn : s'.nativeList = s.nativeList := by
          cases kill_step hs hc (by rw [hpc]; rfl) with
          | move _ hs' => rw [hs']
          | found hpc₀ | null hpc₀ => cases hpc.symm.trans hpc₀
        obtain ⟨x, hx⟩ := Option.isSome_iff_exists.mp hkey
        cases x with
        | none =>
            rw [v.entries.null _ hx] at hcr
            cases hcr
        | some e => exact ⟨e, hn ▸ hx⟩

/-- **`kill` reaches the puppy's own child or nobody.**  In every run in which no process is given a
pid that another `DoryProcess` holds, and the two accesses of a `kill` to the native map are not
separated, each step of a call of `kill` leaves both maps alone, and a signal it sends goes to a
pid that is not in use, or to that of a running child of the `DoryProcess` it was called on. -/
theorem kill_own {puppies : PuppyId → List (Option JString) × StringTable}
    {h : History Label Event}
    (r : machine.RunWhere (fun s l => PidKept s l ∧ KillWhole s l) (.init puppies) h s)
    {t : Tid} {call : Call} (hc : s.calls t = some call) (hk : call.pc.ofKill = true)
    {mem : Uninit} {now : Date} (hs : s.step (.step t mem now) = some (s', os)) :
    s'.nativeList = s.nativeList ∧ s'.javaList = s.javaList ∧
      ∀ q g, (q, g) ∈ os.filterMap Event.signal? → s.os q = none ∨
        ∃ c sp, s.os q = some (.child c) ∧ s.objs c = some sp ∧ sp.puppy = call.puppy ∧
          sp.child.obj.process.watched = true := by
  have v := run_inv r
  have hown {p : PuppyId} {q : Int} := run_own (r.mono fun _ _ h => h.1) (p := p) (q := q)
  have hfinds := run_killFinds (r.mono fun _ _ h => h.2)
  obtain ⟨-, hs⟩ := step_inv hs
  cases kill_step hs hc hk with
  | move _ hs' =>
      rw [hs']
      exact ⟨rfl, rfl, fun q g h => by cases h⟩
  | @found pid g' e hpc he hs' =>
      rw [hs']
      refine ⟨rfl, rfl, fun q g h => ?_⟩
      simp only [List.filterMap_cons, Event.signal?, List.filterMap_nil, List.mem_singleton,
        Prod.mk.injEq] at h
      obtain ⟨sp, -, -, -, -, hcopy⟩ := v.entries.native pid e he
      have hq : q = pid := h.1.trans hcopy
      subst hq
      have hholds : Holds s call.puppy q := .inr ⟨t, call, hc, rfl, by rw [Carries, hpc]⟩
      rcases hown hholds with hn | ⟨c, sp, hos, hsp, hp⟩
      · exact .inl hn
      · obtain ⟨sp', hsp', hw, -⟩ := (v.objects.holder q c).mp hos
        cases hsp.symm.trans hsp'
        exact .inr ⟨c, sp, hos, hsp, hp, hw⟩
  | null hpc hnone =>
      obtain ⟨e, he⟩ := hfinds _ _ _ _ hc hpc
      rw [he] at hnone
      cases hnone

/-! ### One thread and one `DoryProcess` -/

/-- All calls so far were those of one thread on one `DoryProcess`. -/
structure Alone (t : Tid) (p : PuppyId) (s : State) : Prop where
  thread : ∀ t' call, s.calls t' = some call → t' = t ∧ call.puppy = p
  field : ∀ p', p' ≠ p → (s.puppies p').pid = 0

/-- A step that is none of a call of another thread or on another `DoryProcess`, and gives its
pid to no process of somebody else.  A `kill` is not interrupted. -/
def Label.aloneIn (s : State) (t : Tid) (p : PuppyId) : Label → Bool
  | .call t' p' _ => t' = t && p' = p && uninterrupted
  | .step t' _ _ => t' = t
  | .otherStarts _ => false
  | _ => uninterrupted
where
  uninterrupted : Bool := (s.calls t).all fun call =>
    match call.pc with
    | .killDeref _ _ => false
    | _ => true

theorem Alone.step {t : Tid} {p : PuppyId} (a : Alone t p s) (hl : l.aloneIn s t p = true)
    (hs : Step s l s' os) : Alone t p s' := by
  refine ⟨fun t' call' hc' => ?_, fun p' hp => ?_⟩
  · -- a call is new, or goes on with the same `DoryProcess`
    rcases call_back hs hc' with hc | ⟨p₁, api, rfl, -, rfl⟩ | ⟨_, _, call, -, hc, hcall, -⟩
    · exact a.thread t' call' hc
    · simp only [Label.aloneIn, Bool.and_eq_true, decide_eq_true_eq] at hl
      cases api <;> exact hl.1
    · rw [hcall]
      exact a.thread t' call hc
  · rcases field_back hs (p := p') rfl with h | ⟨t', call, hc, hcp, -⟩
    · exact h.symm.trans (a.field p' hp)
    · exact absurd (hcp.symm.trans (a.thread t' call hc).2) hp

theorem run_alone {puppies : PuppyId → List (Option JString) × StringTable}
    {h : History Label Event} {t : Tid} {p : PuppyId}
    (r : machine.RunWhere (fun s l => l.aloneIn s t p = true) (.init puppies) h s) :
    Alone t p s := by
  refine r.inv (fun _ s => Alone t p s) ⟨?_, fun _ _ => rfl⟩ ?_
  · intro t' call hc
    cases hc
  · intro h s s' l os _ hl hs a
    exact a.step hl (step_inv hs).2

/-- One thread that works on one `DoryProcess` meets the conditions of `kill_own`. -/
theorem alone_meets {puppies : PuppyId → List (Option JString) × StringTable}
    {h : History Label Event} {t : Tid} {p : PuppyId}
    (r : machine.RunWhere (fun s l => l.aloneIn s t p = true) (.init puppies) h s) :
    machine.RunWhere (fun s l => PidKept s l ∧ KillWhole s l) (.init puppies) h s := by
  refine r.imp fun {h s l} r hl => ?_
  have a := run_alone r
  -- no other `DoryProcess` holds a pid
  have free {p' : PuppyId} (hp : p' ≠ p) (pid : Pid) : ¬ Holds s p' pid := by
    rintro (hpid | ⟨t', call, hc, rfl, -⟩)
    · have := pid.2
      rw [a.field p' hp] at hpid
      omega
    · exact hp (a.thread t' call hc).2
  constructor
  · cases l with
    | spawn t' i =>
        cases i with
        | uvSpawn r =>
            cases r with
            | ok pid => exact fun call hc p' hp => free ((a.thread t' call hc).2 ▸ hp) pid
            | forkFailed | execFailed => trivial
        | _ => trivial
    | otherStarts => cases hl
    | _ => trivial
  · intro t' call pid g hc hpc
    obtain rfl := (a.thread t' call hc).1
    have hbusy : Label.aloneIn.uninterrupted s t' = false := by
      simp [Label.aloneIn.uninterrupted, hc, hpc]
    cases l with
    | step t₁ mem now =>
        simp only [Label.aloneIn, decide_eq_true_eq] at hl
        exact ⟨mem, now, by rw [hl]⟩
    | call | otherStarts => simp [Label.aloneIn, hbusy] at hl
    | _ => exact absurd (hl.symm.trans hbusy) (by simp)

theorem kill_own_example : ∃ h s s' os,
    machine.RunWhere (fun s l => PidKept s l ∧ KillWhole s l) (.init examplePuppies) h s ∧
    h.inputs = startsWith (.caller 0) 0 7 ++ killsUpTo (.caller 0) 0 ∧
    s.step (go (.caller 0)) = some (s', os) ∧ os.filterMap Event.signal? = [(7, 9)] ∧
    ∃ c sp, s.os 7 = some (.child c) ∧ s.objs c = some sp ∧ sp.puppy = 0 ∧
      sp.child.obj.process.watched = true := by
  have r := Machine.execWhere_run (M := machine)
    (C := fun s l => l.aloneIn s (.caller 0) 0) (s := .init examplePuppies)
    (startsWith (.caller 0) 0 7 ++ killsUpTo (.caller 0) 0) rfl
  refine ⟨_, _, _, _, alone_meets r, rfl, rfl, rfl, ?_⟩
  refine ((kill_own (t := .caller 0) (alone_meets r) rfl ?_
    (show State.step _ (go (.caller 0)) = some _ from rfl)).2.2 7 9 ?_).resolve_left ?_
  · rfl
  · exact .head _
  · intro h
    cases h

/-- **`kill` on a puppy that has finished.**  The child of the first `DoryProcess` exits, the child
of a second one gets its pid, and `kill` on the first, which is not running, signals the child of
the second. -/
theorem kill_other : ∃ h s s' os, machine.Run (.init examplePuppies) h s ∧
    h.inputs = startsWith (.caller 0) 0 7 ++ exits 0 ++
      startsWith (.caller 0) 1 7 ++ killsUpTo (.caller 0) 0 ∧
    s.step (go (.caller 0)) = some (s', os) ∧ os = [.killed 0 7 9 1] ∧
    (s.puppies 0).isRunning = false ∧ s.os 7 = some (.child 1) ∧
    (s.objs 1).map Spawn.puppy = some 1 := by
  refine ⟨_, _, _, _, Machine.exec_run (M := machine) (s := .init examplePuppies)
    (startsWith (.caller 0) 0 7 ++ exits 0 ++
      startsWith (.caller 0) 1 7 ++ killsUpTo (.caller 0) 0) rfl, rfl, rfl, rfl, ?_⟩
  exact ⟨rfl, rfl, rfl⟩

end Dorypuppy.Manager

import Dorypuppy.Support.Shuffle
import Dorypuppy.Native.Handles
import Dorypuppy.Native.Reached

/-!
# Native — the order in which the sources of a child come

A child gets its inputs from `spawn()`, from `exit_cb` and from the two streams.  Each source has an
order of its own; how they interleave is up to the loop.  `Observed` is what the listeners of a
child see of a run, with the signals sent and the handles closed.

* `observed_eq`, `run_over`: what a finished child showed, and the child it is then, are functions
  of the inputs of each source.
* `interleaving_runs`: any other interleaving in which no source comes before it is started can
  come.
* `interleavings_agree`: both show the same.

The exit event comes from `exit_cb` in one order and from the stderr callback in another; that it is
the same event is the exactness of the join (`run_exit`).
-/

namespace Dorypuppy

open Support (Machine History Throughout SameOrder Join)

variable {F : Type}

attribute [ext] UvTimer UvProcess UvPipe DoryProcessSpawn Child

/-- Where an input comes from. -/
inductive Source where
  | spawn | timer | exit | stdout | stderr | user
  deriving DecidableEq

namespace Input

def source : Input → Source
  | .timerCb => .timer
  | .exitCb _ _ => .exit
  | .stdoutCb _ _ => .stdout
  | .stderrCb _ _ => .stderr
  | .kill _ => .user
  | _ => .spawn

theorem isCallback_spawn {i : Input} (h : i.source = .spawn) : i.isCallback = false := by
  cases i with
  | timerCb | exitCb | stdoutCb | stderrCb | kill => cases h
  | _ => rfl

/-- What the read callback of `pipeOut` passes on. -/
def outChunk? : Input → Option Args
  | .stdoutCb nread buf => if 0 < nread then some (.chunk buf nread) else none
  | _ => none

/-- What the read callback of `pipeErr` passes on. -/
def errChunk? : Input → Option Args
  | .stderrCb nread buf => if 0 < nread then some (.chunk buf nread) else none
  | _ => none

/-- A stream ends with an error other than `UV_EOF`. -/
def breaks : Input → Bool
  | .stdoutCb nread _ | .stderrCb nread _ => nread < 0 ∧ nread ≠ UV_EOF
  | _ => false

end Input

/-- The timer does not fire, and nobody calls `kill`. -/
def Undisturbed (is : List Input) : Prop := ∀ i ∈ is, i.source ≠ .timer ∧ i.source ≠ .user

/-- No callback comes before the call that starts its source. -/
def StartedFirst : List Input → Prop :=
  Throughout fun pre i => (i.source = .exit → pre.any Input.spawns) ∧
    (i.source = .stdout → pre.any Input.startsOut) ∧
    (i.source = .stderr → pre.any Input.startsErr)

def Args.isStatus : Args → Bool
  | .status _ _ => true
  | _ => false

@[simp] theorem Args.isStatus_status (e g : Int) : (Args.status e g).isStatus = true := rfl

@[simp] theorem Args.isStatus_chunk (buf : List UInt8) (nread : Int) :
    (Args.chunk buf nread).isStatus = false := rfl

@[simp] theorem Args.isStatus_plain : Args.plain.isStatus = false := rfl

namespace Act

/-- A registered function run: its arguments, and the pid it sees. -/
def call? : Act F → Option (F × Args × Int)
  | .invoke f args pid => some (f, args, pid)
  | _ => none

end Act

/-- The calls of a registered function. -/
def called (f : Option F) (pid : Int) (args : List Args) : List (F × Args × Int) :=
  match f with
  | some f => args.map fun a => (f, a, pid)
  | none => []

@[simp] theorem called_append (f : Option F) (pid : Int) (as bs : List Args) :
    called f pid (as ++ bs) = called f pid as ++ called f pid bs := by
  cases f <;> simp [called]

@[simp] theorem called_nil (f : Option F) (pid : Int) : called f pid [] = [] := by
  cases f <;> rfl

theorem called_filter (p : Args → Bool) (f : Option F) (pid : Int) (args : List Args) :
    (called f pid args).filter (fun call => p call.2.1) = called f pid (args.filter p) := by
  cases f <;> simp [called, List.filter_map, Function.comp_def]

theorem called_flatMap {α : Type} (f : Option F) (pid : Int) (g : α → List Args) (l : List α) :
    l.flatMap (fun x => called f pid (g x)) = called f pid (l.flatMap g) := by
  induction l with
  | nil => simp
  | cons x l ih => rw [List.flatMap_cons, List.flatMap_cons, ih, ← called_append]

/-- What the listeners of a child see of a run, and what it does to the child and its handles. -/
structure Observed (F : Type) where
  stdout : List (F × Args × Int)
  stderr : List (F × Args × Int)
  exit : List (F × Args × Int)
  signals : List (Int × Int)
  closed : Handle → Nat

namespace Child

variable {s s' t : Child F} {i : Input} {is : List Input} {as : List (Act F)} {c : Setup F}
  {h k : History Input (Act F)}

/-- The functions run in a history, by the input and the arguments. -/
def callsOf (p : Input → Args → Bool) (h : History Input (Act F)) : List (F × Args × Int) :=
  h.flatMap fun x => (x.2.filterMap Act.call?).filter fun call => p x.1 call.2.1

def observed (h : History Input (Act F)) : Observed F where
  stdout := callsOf (fun i _ => i.source = .stdout) h
  stderr := callsOf (fun i args => i.source = .stderr && !args.isStatus) h
  exit := callsOf (fun _ args => args.isStatus) h
  signals := h.outputs.filterMap Act.signal?
  closed := closeCount h.outputs

/-! ### The functions a step runs -/

/-- The functions the step of an input runs. -/
def callsAt (o : DoryProcessSpawn F) : Input → List (F × Args × Int)
  | .timerCb => called (o.listeners.eventListeners "timeout") o.pid [.plain]
  | .exitCb e g =>
      if o.stderrFlushed then called o.listeners.exitCallback o.pid [.status e g] else []
  | .stdoutCb nread buf =>
      if 0 < nread then called o.listeners.stdoutCallback o.pid [.chunk buf nread] else []
  | .stderrCb nread buf =>
      if 0 < nread then called o.listeners.stderrCallback o.pid [.chunk buf nread]
      else if nread < 0 ∧ o.exited then
        called o.listeners.exitCallback o.pid [.status o.exitStatus o.termSignal]
      else []
  | _ => []

theorem emit_call (o : DoryProcessSpawn F) (name : String) (args : Args) :
    (o.emit name args).filterMap Act.call? = (o.dispatch name args).filterMap Act.call? := rfl

theorem call_call (o : DoryProcessSpawn F) (f : Option F) (args : Args) :
    (o.call f args).filterMap Act.call? = called f o.pid [args] := by
  cases f <;> rfl

@[simp] theorem readError_call (o : DoryProcessSpawn F) (nread : Int) :
    (o.readError nread).filterMap Act.call? = [] := by
  simp only [DoryProcessSpawn.readError]
  split <;> rfl

theorem step_calls (hs : step s i = some (s', as)) :
    as.filterMap Act.call? = callsAt s.obj i := by
  cases step_inv hs with
  | timerCb =>
      rw [DoryProcessSpawn.timerCbHead_snd]
      split <;> simp [callsAt, emit_call, DoryProcessSpawn.dispatch, call_call, List.filterMap_cons,
        Act.call?, DoryProcessSpawn.timerCbTail]
  | exitCb =>
      rw [DoryProcessSpawn.exitCb_snd]
      split <;> split <;> simp [callsAt, emit_call, DoryProcessSpawn.dispatch, call_call,
        List.filterMap_cons, Act.call?, *]
  | @stdoutCb o pc nread buf =>
      rw [DoryProcessSpawn.stdoutCbHead_snd]
      split
      · have : ¬ nread < 0 := by omega
        simp [callsAt, emit_call, DoryProcessSpawn.dispatch, call_call, Act.call?,
          DoryProcessSpawn.readCbTail, *]
      · split <;> simp [callsAt, DoryProcessSpawn.readCbTail, Act.call?, *]
  | @stderrCb o pc nread buf =>
      rw [DoryProcessSpawn.stderrCbHead_snd]
      split
      · have : ¬ nread < 0 := by omega
        simp [callsAt, emit_call, DoryProcessSpawn.dispatch, call_call, Act.call?,
          DoryProcessSpawn.readCbTail, *]
      · split
        · split <;> simp [callsAt, emit_call, DoryProcessSpawn.dispatch, call_call, Act.call?,
            DoryProcessSpawn.readCbTail, List.filterMap_cons, *]
        · simp [callsAt, DoryProcessSpawn.readCbTail, Act.call?, *]
  | killReturn | kill => rfl
  | _ => rfl

/-! ### One run -/

/-- A step of a run after which `spawn()` has returned 0. -/
theorem step_of_mem (r : (machine F).Run (start c) h s) (hpc : s.pc = .returned 0)
    {x : Input × List (Act F)} (hx : x ∈ h) : ∃ u v, Reached u ∧ step u x.1 = some (v, x.2) ∧
      u.obj.listeners = c.listeners ∧ (born u = true → u.obj.process.pid = s.obj.pid) ∧
      x.1 ≠ .killReturn := by
  obtain ⟨k, l, rfl⟩ := List.append_of_mem hx
  obtain ⟨u, v, ru, hs, rv⟩ := r.cut
  have hu : Reached u := ⟨c, k, ru⟩
  refine ⟨u, v, hu, hs, run_listeners ru, fun hb => ?_, fun hi => ?_⟩
  · obtain ⟨hb', hpid⟩ := hu.born_step hs hb
    obtain ⟨hr, -, hpid'⟩ := run_born (hu.step hs) rv hb'
    rw [(hr.started hpc).2, hpid', hpid]
  · have hret : ∃ e : UvError, v.pc = .returned e := by
      obtain ⟨i, as⟩ := x
      have hs' : step u .killReturn = some (v, as) := by rw [← hi]; exact hs
      cases step_inv hs' with
      | @killReturn o e => exact ⟨e, rfl⟩
    obtain ⟨e, hret⟩ := hret
    have := run_returned rv hret
    rw [hpc, SpawnPc.returned.injEq] at this
    exact absurd this (by have := e.2; omega)

/-- What the steps of a history give, one by one, is what its inputs give. -/
theorem flatMap_inputs {β : Type} {f : Input × List (Act F) → List β} {g : Input → List β}
    (hfg : ∀ x ∈ h, f x = g x.1) : h.flatMap f = h.inputs.flatMap g := by
  induction h with
  | nil => rfl
  | cons x h ih =>
      rw [List.flatMap_cons, hfg x (List.mem_cons_self ..),
        ih fun y hy => hfg y (List.mem_cons_of_mem _ hy)]
      rfl

/-- The registered function for stdout is given the reads that brought data, in order. -/
theorem observed_stdout (r : (machine F).Run (start c) h s) (hpc : s.pc = .returned 0) :
    (observed h).stdout =
      called c.listeners.stdoutCallback s.obj.pid (h.inputs.filterMap Input.outChunk?) := by
  rw [List.filterMap_eq_flatMap_toList, ← called_flatMap]
  refine flatMap_inputs fun x hx => ?_
  obtain ⟨u, v, hu, hs, hl, hpid, -⟩ := step_of_mem r hpc hx
  obtain ⟨i, as⟩ := x
  rw [step_calls hs]
  cases i with
  | stdoutCb nread buf =>
      have hread : u.obj.pipeOut.reading = true := by
        cases step_inv hs with
        | stdoutCb hr => exact hr
      obtain ⟨hb, hst⟩ := hu.stored (.inl hread)
      simp only [callsAt, Input.outChunk?, Input.source, hl, hst, hpid hb]
      split <;> simp
  | _ => simp [Input.source, Input.outChunk?]

/-- The one for stderr likewise. -/
theorem observed_stderr (r : (machine F).Run (start c) h s) (hpc : s.pc = .returned 0) :
    (observed h).stderr =
      called c.listeners.stderrCallback s.obj.pid (h.inputs.filterMap Input.errChunk?) := by
  rw [List.filterMap_eq_flatMap_toList, ← called_flatMap]
  refine flatMap_inputs fun x hx => ?_
  obtain ⟨u, v, hu, hs, hl, hpid, -⟩ := step_of_mem r hpc hx
  obtain ⟨i, as⟩ := x
  rw [step_calls hs]
  cases i with
  | stderrCb nread buf =>
      have hread : u.obj.pipeErr.reading = true := by
        cases step_inv hs with
        | stderrCb hr => exact hr
      obtain ⟨hb, hst⟩ := hu.stored (.inr (.inl hread))
      simp only [callsAt, Input.errChunk?, Input.source, hl, hst, hpid hb, decide_true,
        Bool.true_and]
      rw [apply_ite (List.filter _), apply_ite (List.filter _), called_filter (!·.isStatus),
        called_filter (!·.isStatus)]
      split
      · rfl
      · split <;> simp
  | _ => simp [Input.source, Input.errChunk?]

/-- The one for the exit event is given the arguments of each `emit("exit", …)`. -/
theorem observed_exit (r : (machine F).Run (start c) h s) (hpc : s.pc = .returned 0) :
    (observed h).exit = called c.listeners.exitCallback s.obj.pid
      ((h.outputs.filterMap Act.exit?).map fun x => .status x.1 x.2) := by
  have step (x) (hx : x ∈ h) : (x.2.filterMap Act.call?).filter (fun call => call.2.1.isStatus) =
      called c.listeners.exitCallback s.obj.pid
        ((x.2.filterMap Act.exit?).map fun x => .status x.1 x.2) := by
    obtain ⟨u, v, hu, hs, hl, hpid, -⟩ := step_of_mem r hpc hx
    obtain ⟨i, as⟩ := x
    rw [step_calls hs, step_exit hs]
    cases i with
    | timerCb => simp [callsAt, exitOf, called_filter Args.isStatus]
    | exitCb e g =>
        simp only [callsAt, exitOf]
        split
        · rename_i hf
          obtain ⟨hb, hst⟩ := hu.stored (.inr (.inr (.inl hf)))
          simp [hl, hst, hpid hb, called_filter Args.isStatus, List.filter_cons]
        · simp
    | stdoutCb nread buf =>
        simp only [callsAt, exitOf]
        split <;> simp [called_filter Args.isStatus]
    | stderrCb nread buf =>
        have hread : u.obj.pipeErr.reading = true := by
          cases step_inv hs with
          | stderrCb hr => exact hr
        obtain ⟨hb, hst⟩ := hu.stored (.inr (.inl hread))
        simp only [callsAt, exitOf, hl, hst, hpid hb]
        split
        · have : ¬ nread < 0 := by omega
          simp [called_filter Args.isStatus, this]
        · split <;> simp [called_filter Args.isStatus, List.filter_cons]
    | _ => simp [callsAt, exitOf]
  have hsum : (observed h).exit = h.flatMap fun x => called c.listeners.exitCallback s.obj.pid
      ((x.2.filterMap Act.exit?).map fun x => .status x.1 x.2) := by
    exact List.flatMap_congr step
  rw [hsum, called_flatMap, History.outputs, List.filterMap_flatMap, List.map_flatMap]

/-- One signal for each stream that ends with an error. -/
theorem observed_signals (r : (machine F).Run (start c) h s) (hpc : s.pc = .returned 0)
    (hq : Undisturbed h.inputs) :
    (observed h).signals = List.replicate (h.inputs.countP Input.breaks) (s.obj.pid, SIGTERM) := by
  have step (x) (hx : x ∈ h) : x.2.filterMap Act.signal? =
      List.replicate ([x.1].countP Input.breaks) (s.obj.pid, SIGTERM) := by
    obtain ⟨u, v, hu, hs, hl, hpid, hret⟩ := step_of_mem r hpc hx
    obtain ⟨hti, hus⟩ := hq x.1 (List.mem_map_of_mem hx)
    obtain ⟨i, as⟩ := x
    rw [step_signal hs]
    cases i with
    | timerCb => exact absurd rfl hti
    | kill => exact absurd rfl hus
    | killReturn => exact absurd rfl hret
    | stdoutCb nread buf =>
        have hread : u.obj.pipeOut.reading = true := by
          cases step_inv hs with
          | stdoutCb hr => exact hr
        obtain ⟨hb, -⟩ := hu.stored (.inl hread)
        simp only [DoryProcessSpawn.signalsAt, hpid hb, List.countP_singleton, Input.breaks,
          decide_eq_true_eq]
        split <;> rfl
    | stderrCb nread buf =>
        have hread : u.obj.pipeErr.reading = true := by
          cases step_inv hs with
          | stderrCb hr => exact hr
        obtain ⟨hb, -⟩ := hu.stored (.inr (.inl hread))
        simp only [DoryProcessSpawn.signalsAt, hpid hb, List.countP_singleton, Input.breaks,
          decide_eq_true_eq]
        split <;> rfl
    | _ => rfl
  have hsum : (observed h).signals = h.flatMap fun x =>
      List.replicate ([x.1].countP Input.breaks) (s.obj.pid, SIGTERM) := by
    rw [observed, History.outputs, List.filterMap_flatMap]
    exact List.flatMap_congr step
  rw [hsum]
  clear hsum step hq hpc r
  induction h with
  | nil => rfl
  | cons x h ih =>
      have hcons : History.inputs (x :: h) = [x.1] ++ History.inputs h := rfl
      rw [List.flatMap_cons, ih, List.replicate_append_replicate, hcons, List.countP_append]

/-! ### The child when all is over -/

theorem exitStatus_eq (r : (machine F).Run (start c) h s) {e g : Int}
    (hx : .exitCb e g ∈ h.inputs) : h.inputs.filterMap Input.exitStatus? = [(e, g)] := by
  have hany : h.inputs.any Input.exits = true := List.any_eq_true.mpr ⟨_, hx, rfl⟩
  have hlen := (exitStatus_length h.inputs).trans (exits_once r)
  rw [hany] at hlen
  obtain ⟨y, hy⟩ := List.length_eq_one_iff.mp hlen
  have hmem : (e, g) ∈ h.inputs.filterMap Input.exitStatus? :=
    List.mem_filterMap.mpr ⟨_, hx, rfl⟩
  rw [hy] at hmem ⊢
  rw [List.mem_singleton.mp hmem]

/-- The object keeps the status `exit_cb` was given. -/
theorem run_status (r : (machine F).Run (start c) h s) {e g : Int}
    (hx : .exitCb e g ∈ h.inputs) : s.obj.exitStatus = e ∧ s.obj.termSignal = g := by
  have hexited : s.obj.exited = true := by
    rw [(run_tracks r).exited]
    exact List.any_eq_true.mpr ⟨_, hx, rfl⟩
  have hvalue := (run_joins r).1.value
  rw [Join.run_eq _ (run_oneShot r), Input.filterMap_value, exitStatus_eq r hx, if_pos hexited,
    List.head?_cons, Option.some.injEq, Prod.mk.injEq] at hvalue
  exact ⟨hvalue.1.symm, hvalue.2.symm⟩

/-- The child once `spawn()` has returned 0, `exit_cb` has run and both streams have ended. -/
def atEnd (c : Setup F) (pid exitStatus termSignal : Int) : Child F where
  obj := { (start c).obj with
    process := { pid := pid, closing := true, watched := false }
    pipeOut := { closing := true, reading := false }
    pipeErr := { closing := true, reading := false }
    timer :=
      if 0 < c.timeout then { loop := c.loop, closing := true, armed := false }
      else
        { loop := c.mem.timerLoop
          closing := c.mem.timerClosing || decide (c.mem.timerLoop = c.loop)
          armed := false }
    exited := true
    stderrFlushed := true
    pid := pid
    exitStatus := exitStatus
    termSignal := termSignal }
  pc := .returned 0

theorem run_over (r : (machine F).Run (start c) h s) (hpc : s.pc = .returned 0) {e g : Int}
    (hx : .exitCb e g ∈ h.inputs) (ho : h.inputs.any Input.endsOut)
    (he : h.inputs.any Input.endsErr) : s = atEnd c s.obj.pid e g := by
  have t := run_tracks r
  have hany : h.inputs.any Input.exits = true := List.any_eq_true.mpr ⟨_, hx, rfl⟩
  have hsp := t.exits hany
  have hpid : s.obj.pid = s.obj.process.pid := (Reached.started ⟨c, h, r⟩ hpc).2
  obtain ⟨hto, hlo⟩ := run_const r
  obtain ⟨hexit, hterm⟩ := run_status r hx
  have htimer : s.obj.timer = (atEnd c s.obj.pid e g).obj.timer := by
    simp only [atEnd]
    split
    · rename_i ht
      obtain ⟨hl, hc⟩ := t.timer (hto ▸ ht) (by have := t.spawns hsp; omega)
      ext1
      · exact hl.trans hlo
      · rw [hc, hany, Bool.or_true]
      · rw [t.armed, hany, Bool.or_true, Bool.not_true, Bool.and_false]
    · rename_i ht
      rw [untimed_timer r (by simpa [UInt64.pos_iff_ne_zero] using ht), hany, Bool.true_and]
  ext1
  · ext1
    case process =>
      ext1
      · exact hpid.symm
      · exact (t.procClosing hsp).trans hany
      · rw [t.watched, hany, Bool.not_true, Bool.and_false]; rfl
    case pipeOut =>
      ext1
      · exact t.outClosing.trans ho
      · rw [t.outReading, ho, Bool.not_true, Bool.and_false]; rfl
    case pipeErr =>
      ext1
      · exact t.errClosing.trans he
      · rw [t.errReading, he, Bool.not_true, Bool.and_false]; rfl
    case timer => exact htimer
    case exited => exact t.exited.trans hany
    case stderrFlushed => exact t.flushed.trans he
    case timeout => exact hto
    case uvLoop => exact hlo
    case options => exact (run_spawn r).1
    case listeners => exact run_listeners r
    case exitStatus => exact hexit
    case termSignal => exact hterm
    case pid => rfl
  · exact hpc

/-! ### The events that can come -/

theorem run_one (hs : step s i = some (s', as)) : (machine F).Run s [(i, as)] s' :=
  Machine.Run.one hs

/-- Reads with data, or with nothing, leave the child as it is. -/
theorem reads_run (cb : Int → List UInt8 → Input) {s : Child F}
    (hcb : ∀ n buf, 0 ≤ n → ∃ as, step s (cb n buf) = some (s, as))
    (reads : List (Int × List UInt8)) (hreads : ∀ x ∈ reads, 0 ≤ x.1) :
    ∃ h, (machine F).Run s h s ∧ h.inputs = reads.map fun x => cb x.1 x.2 := by
  induction reads with
  | nil => exact ⟨[], .nil, rfl⟩
  | cons x reads ih =>
      obtain ⟨as, hs⟩ := hcb x.1 x.2 (hreads x (List.mem_cons_self ..))
      obtain ⟨h, r, hh⟩ := ih fun y hy => hreads y (List.mem_cons_of_mem _ hy)
      exact ⟨_, (run_one hs).trans r, by simp [hh]⟩

/-- After a `spawn()` that returned 0, any reads of the two streams, each ended by `nread < 0`, and
any exit can come. -/
theorem events_come (ho : s.obj.pipeOut.reading = true) (he : s.obj.pipeErr.reading = true)
    (hw : s.obj.process.watched = true) {outs errs : List (Int × List UInt8)}
    (houts : ∀ x ∈ outs, 0 ≤ x.1) (herrs : ∀ x ∈ errs, 0 ≤ x.1) {n m : Int} (hn : n < 0)
    (hm : m < 0) (buf buf' : List UInt8) (e g : Int) :
    ∃ h t, (machine F).Run s h t ∧ h.inputs =
      outs.map (fun x => .stdoutCb x.1 x.2) ++ [.stdoutCb n buf] ++
        (errs.map (fun x => .stderrCb x.1 x.2) ++ [.stderrCb m buf', .exitCb e g]) := by
  obtain ⟨h₁, r₁, e₁⟩ := reads_run .stdoutCb (s := s) (fun n buf hn => by
    have : ¬ n < 0 := by omega
    simp [step, Input.isCallback, callbackHead, ho, this]) outs houts
  obtain ⟨t₁, as₁, hs₁, ht₁⟩ : ∃ t as, step s (.stdoutCb n buf) = some (t, as) ∧
      t.obj.pipeErr.reading = true ∧ t.obj.process.watched = true := by
    simp [step, Input.isCallback, callbackHead, ho, hn, he, hw]
  obtain ⟨h₂, r₂, e₂⟩ := reads_run .stderrCb (s := t₁) (fun n buf hn => by
    have : ¬ n < 0 := by omega
    simp [step, Input.isCallback, callbackHead, ht₁.1, this]) errs herrs
  obtain ⟨t₂, as₂, hs₂, ht₂⟩ : ∃ t as, step t₁ (.stderrCb m buf') = some (t, as) ∧
      t.obj.process.watched = true := by
    simp [step, Input.isCallback, callbackHead, ht₁.1, hm, ht₁.2]
  obtain ⟨t₃, as₃, hs₃⟩ : ∃ t as, step t₂ (.exitCb e g) = some (t, as) := by
    simp [step, Input.isCallback, callbackHead, ht₂]
  refine ⟨_, t₃, (r₁.trans (run_one hs₁)).trans
    (r₂.trans ((run_one hs₂).trans (run_one hs₃))), ?_⟩
  simp [e₁, e₂]

/-! ### Two runs -/

theorem step_source (hs : step s i = some (s', as)) (hi : i.source ≠ .spawn) : s'.pc = s.pc := by
  cases step_inv hs with
  | timerCb | exitCb | stdoutCb | stderrCb | kill => rfl
  | _ => exact absurd rfl hi

theorem filter_snoc_ne {l : List Input} (hi : i.source ≠ .spawn) :
    (l ++ [i]).filter (·.source = .spawn) = l.filter (·.source = .spawn) := by
  rw [List.filter_append, List.filter_singleton, decide_eq_false hi, cond_false, List.append_nil]

theorem filter_snoc_eq {l : List Input} (hi : i.source = .spawn) :
    (l ++ [i]).filter (·.source = .spawn) = l.filter (·.source = .spawn) ++ [i] := by
  rw [List.filter_append, List.filter_singleton, decide_eq_true hi, cond_true]

/-- Where `spawn()` is depends on its own steps only. -/
theorem same_pc (r : (machine F).Run (start c) h s) (r' : (machine F).Run (start c) k t)
    (e : h.inputs.filter (·.source = .spawn) = k.inputs.filter (·.source = .spawn)) :
    s.pc = t.pc := by
  induction r generalizing k t with
  | nil =>
      induction r' with
      | nil => rfl
      | @snoc k t t' j bs _ _ hs ih =>
          rw [History.inputs_append, History.inputs_cons, History.inputs_nil] at e
          by_cases hj : j.source = .spawn
          · rw [filter_snoc_eq hj] at e
            simp at e
          · rw [step_source hs hj, ih (by rwa [filter_snoc_ne hj] at e)]
  | @snoc h s s' i as r _ hs ih =>
      rw [History.inputs_append, History.inputs_cons, History.inputs_nil] at e
      by_cases hi : i.source = .spawn
      · rw [filter_snoc_eq hi] at e
        induction r' with
        | nil => simp at e
        | @snoc k t t' j bs r' _ hs' ih' =>
            rw [History.inputs_append, History.inputs_cons, History.inputs_nil] at e
            by_cases hj : j.source = .spawn
            · -- the last steps of `spawn()` are the same one, from the same place
              rw [filter_snoc_eq hj] at e
              obtain ⟨e', eij⟩ := List.append_inj' e rfl
              cases eij
              have hpc := ih r' e'
              have hto := (run_const r'.run).1.trans (run_const r.run).1.symm
              have hcb (h : i.isCallback) : (t.callbackHead i).isSome := by
                rw [Input.isCallback_spawn hi] at h
                cases h
              obtain ⟨t'', _, ht, hpc'⟩ := step_accepts hs hto hcb fun _ => hpc.symm
              cases ht.symm.trans hs'
              exact (hpc' hpc.symm).symm
            · rw [step_source hs' hj]
              exact ih' (by rwa [filter_snoc_ne hj] at e)
      · rw [step_source hs hi]
        exact ih r' (by rwa [filter_snoc_ne hi] at e)

/-- **Every interleaving can come.**  An order of the inputs of a run that keeps the order within
each source, and in which no source comes before it is started, is a run. -/
theorem interleaving_runs (r : (machine F).Run (start c) h s) (hq : Undisturbed h.inputs)
    (hsame : SameOrder Input.source h.inputs is) (hst : StartedFirst is) :
    ∃ k t, (machine F).Run (start c) k t ∧ k.inputs = is := by
  suffices ∀ pre, pre <+: is → ∃ k t, (machine F).Run (start c) k t ∧ k.inputs = pre from
    this is (List.prefix_refl _)
  intro pre
  induction pre using List.reverseRecOn with
  | nil => exact fun _ => ⟨[], _, .nil, rfl⟩
  | append_singleton pre i ih =>
      intro hp
      obtain ⟨k, t, rt, rfl⟩ := ih ((List.prefix_append _ _).trans hp)
      obtain ⟨pre', hp', hkey⟩ := hsame.before hp
      obtain ⟨k', as, l, u, v, rfl, rfl, ru, hs, -⟩ := r.at hp'
      replace hs : step u i = some (v, as) := hs
      have tt := run_tracks rt
      have tu := run_tracks ru
      obtain ⟨hti, hus⟩ := hq i (hp'.subset (by simp))
      obtain ⟨hexit, hout, herr⟩ := hst _ _ hp
      -- what ends a source came before `i` in both orders, or in none
      have ended {p : Input → Bool} (hpk : ∀ j, p j → j.source = i.source) :
          k.inputs.any p = k'.inputs.any p := Support.any_eq_of_filter hpk hkey.symm
      have hcb (hi : i.isCallback) : (t.callbackHead i).isSome := by
        cases i with
        | timerCb => exact absurd rfl hti
        | exitCb e g =>
            have hw := step_exits hs rfl
            rw [tu.watched, Bool.and_eq_true] at hw
            rw [exitCb_comes, tt.watched, hexit rfl, ended (p := Input.exits), hw.2]
            · rfl
            · intro j hj; cases j <;> first | rfl | cases hj
        | stdoutCb nread buf =>
            have hr : u.obj.pipeOut.reading = true := by
              cases step_inv hs with
              | stdoutCb hr => exact hr
            rw [tu.outReading, Bool.and_eq_true] at hr
            rw [stdoutCb_comes, tt.outReading, hout rfl, ended (p := Input.endsOut), hr.2]
            · rfl
            · intro j hj; cases j <;> first | rfl | cases hj
        | stderrCb nread buf =>
            have hr : u.obj.pipeErr.reading = true := by
              cases step_inv hs with
              | stderrCb hr => exact hr
            rw [tu.errReading, Bool.and_eq_true] at hr
            rw [stderrCb_comes, tt.errReading, herr rfl, ended (p := Input.endsErr), hr.2]
            · rfl
            · intro j hj; cases j <;> first | rfl | cases hj
        | _ => cases hi
      have hpc (hi : i.isCallback = false) : t.pc = u.pc := by
        refine same_pc rt ru ?_
        have hsrc : i.source = .spawn := by
          cases i with
          | kill => exact absurd rfl hus
          | timerCb | exitCb | stdoutCb | stderrCb => cases hi
          | _ => rfl
        rw [← hsrc]
        exact hkey.symm
      obtain ⟨t', bs, ht, -⟩ :=
        step_accepts hs ((run_const rt).1.trans (run_const ru).1.symm) hcb hpc
      exact ⟨_, t', rt.snoc trivial ht, by simp⟩

/-- What a finished child showed, read off its inputs. -/
theorem observed_eq (r : (machine F).Run (start c) h s) (hpc : s.pc = .returned 0)
    (hq : Undisturbed h.inputs) {e g : Int} (hx : .exitCb e g ∈ h.inputs)
    (ho : h.inputs.any Input.endsOut) (he : h.inputs.any Input.endsErr) :
    observed h =
      { stdout := called c.listeners.stdoutCallback s.obj.pid (h.inputs.filterMap Input.outChunk?)
        stderr := called c.listeners.stderrCallback s.obj.pid (h.inputs.filterMap Input.errChunk?)
        exit := called c.listeners.exitCallback s.obj.pid [.status e g]
        signals := List.replicate (h.inputs.countP Input.breaks) (s.obj.pid, SIGTERM)
        closed := fun
          | .process | .pipeOut | .pipeErr => 1
          | .timer => if 0 < c.timeout then 1 else (Uninit.takenForTimer c.mem c.loop).toNat } := by
  have hany : h.inputs.any Input.exits = true := List.any_eq_true.mpr ⟨_, hx, rfl⟩
  have hclosed : (observed h).closed = fun
      | .process | .pipeOut | .pipeErr => 1
      | .timer => if 0 < c.timeout then 1 else (Uninit.takenForTimer c.mem c.loop).toNat := by
    funext hd
    cases hd with
    | process =>
        exact (closeCount_eq (fun _ _ => rfl) r).trans ((exits_once r).trans (by rw [hany]; rfl))
    | pipeOut =>
        exact (closeCount_eq (fun _ _ => rfl) r).trans ((endsOut_once r).trans (by rw [ho]; rfl))
    | pipeErr =>
        exact (closeCount_eq (fun _ _ => rfl) r).trans ((endsErr_once r).trans (by rw [he]; rfl))
    | timer =>
        refine (closeCount_timer r).trans ?_
        rw [hany]
        split <;> simp
  have hexit := observed_exit r hpc
  rw [run_exit r, if_pos he, exitStatus_eq r hx] at hexit
  rw [← observed_stdout r hpc, ← observed_stderr r hpc, ← observed_signals r hpc hq, ← hclosed]
  exact congrArg (fun x => { observed h with exit := x }) hexit

/-- **The listeners do not see how the sources interleave.**  Take any run of a child whose
`spawn()` returned 0, whose `exit_cb` has run and whose streams have ended, without an expiry of the
timer.  Any other order of its inputs that keeps the order within each source is a run too, which
ends in the same child, and shows the same: to each registered function the same calls, in order,
the same signals, and the same handles closed.  The functions for stdout and stderr were given the
reads with data, the one for exit the status of `exit_cb`, once, and one `SIGTERM` was sent for each
stream that ended with an error. -/
theorem interleavings_agree (r : (machine F).Run (start c) h s) (hpc : s.pc = .returned 0)
    (hq : Undisturbed h.inputs) {e g : Int} (hx : .exitCb e g ∈ h.inputs)
    (ho : h.inputs.any Input.endsOut) (he : h.inputs.any Input.endsErr)
    (hsame : SameOrder Input.source h.inputs is) (hst : StartedFirst is) :
    ∃ k, (machine F).Run (start c) k s ∧ k.inputs = is ∧ observed k = observed h ∧
      (observed h).stdout =
        called c.listeners.stdoutCallback s.obj.pid (h.inputs.filterMap Input.outChunk?) ∧
      (observed h).stderr =
        called c.listeners.stderrCallback s.obj.pid (h.inputs.filterMap Input.errChunk?) ∧
      (observed h).exit = called c.listeners.exitCallback s.obj.pid [.status e g] ∧
      (observed h).signals =
        List.replicate (h.inputs.countP Input.breaks) (s.obj.pid, SIGTERM) ∧
      s = atEnd c s.obj.pid e g := by
  obtain ⟨k, t, rt, hk⟩ := interleaving_runs r hq hsame hst
  subst hk
  have hpc' : t.pc = .returned 0 := (same_pc rt r (hsame .spawn).symm).trans hpc
  have hx' := hsame.mem_iff.mp hx
  have ho' := (hsame.any_eq _).symm.trans ho
  have he' := (hsame.any_eq _).symm.trans he
  -- both have the pid `uv_spawn` gave
  have hpid : t.obj.pid = s.obj.pid := by
    have ts := run_tracks r
    obtain ⟨j, hj, hsp⟩ :=
      List.any_eq_true.mp (ts.exits (List.any_eq_true.mpr ⟨_, hx, rfl⟩))
    obtain ⟨pid, rfl⟩ := eq_of_spawns hsp
    rw [(Reached.started ⟨c, h, r⟩ hpc).2, (Reached.started ⟨c, k, rt⟩ hpc').2,
      (run_pids r).spawned pid hj, (run_pids rt).spawned pid (hsame.mem_iff.mp hj)]
  have hover := run_over r hpc hx ho he
  have hst : t = s := by
    rw [run_over rt hpc' hx' ho' he', hpid, ← hover]
  rw [hst] at rt
  have hobs := observed_eq r hpc hq hx ho he
  refine ⟨k, rt, rfl, ?_, ?_, ?_, ?_, ?_, hover⟩
  · rw [hobs, observed_eq rt hpc (fun i hi => hq i (hsame.mem_iff.mpr hi)) hx' ho' he',
      hsame.filterMap_eq .stdout (f := Input.outChunk?), hsame.filterMap_eq .stderr
        (f := Input.errChunk?), hsame.countP_eq]
    · intro j hj; cases j <;> first | rfl | exact absurd rfl hj
    · intro j hj; cases j <;> first | rfl | exact absurd rfl hj
  · rw [hobs]
  · rw [hobs]
  · rw [hobs]
  · rw [hobs]

theorem interleavings_agree_example : ∃ h k s, (machine Unit).Run (start (.example 0)) h s ∧
    (machine Unit).Run (start (.example 0)) k s ∧
    h.inputs = spawned ++ [.stdoutCb 1 [65], .stdoutCb UV_EOF [], .stderrCb (-104) [],
      .exitCb 55 0] ∧
    k.inputs = spawned ++ [.exitCb 55 0, .stdoutCb 1 [65], .stderrCb (-104) [],
      .stdoutCb UV_EOF []] ∧
    observed k = observed h := by
  have r := Machine.exec_run (M := machine Unit) (s := start (.example 0))
    (spawned ++ [.stdoutCb 1 [65], .stdoutCb UV_EOF [], .stderrCb (-104) [], .exitCb 55 0]) rfl
  have hsame : SameOrder Input.source
      (spawned ++ [.stdoutCb 1 [65], .stdoutCb UV_EOF [], .stderrCb (-104) [], .exitCb 55 0])
      (spawned ++ [.exitCb 55 0, .stdoutCb 1 [65], .stderrCb (-104) [], .stdoutCb UV_EOF []]) := by
    intro p
    cases p <;> rfl
  obtain ⟨k, rk, hk, hobs, -⟩ := interleavings_agree (e := 55) (g := 0) r rfl
    (by simp only [Undisturbed]; decide) (by decide) rfl rfl hsame
    (by simp only [StartedFirst]; decide)
  exact ⟨_, k, _, r, rk, rfl, hk, hobs⟩

end Child

end Dorypuppy

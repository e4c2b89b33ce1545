import Dorypuppy.Manager.Registry

/-!
# Manager — delivery

What a child emits reaches the listeners of its `DoryProcess` by way of the Java map: a method of
`DoryPuppy` that does not find the pid drops the event.  The native half registers its functions
before `spawn()`, but the entry of the map comes after it, and the exit event takes the entry out
while stdout may still be open (`chunk_before_put`).

`delivered_all`: when each event of a child looks for the pid after the `put` and before the
removal, the listeners of its `DoryProcess` get all of them, once and in order.
-/

namespace Dorypuppy.Manager

open Child (Reached born done)
open Support (Machine History)
open Function (update update_self update_of_ne)

variable {s s' : State} {l : Label} {os : List Event} {c : ObjId}

/-! ### When each event is in time -/

/-- The `DoryProcess` has its listeners when its `start()` makes the child. -/
def heard (s : State) (c : ObjId) : Label → Bool
  | .step t _ _ => (s.calls t).all fun call => call.pc ≠ .create || s.next ≠ c ||
      [.stdout, .stderr, .exit].all fun k => ((s.puppies call.puppy).listenerOf k).isSome
  | _ => true

/-- The method an event of the child calls looks for the pid after `put`, and a chunk before the
exit event. -/
def inTime (s : State) (c : ObjId) : Label → Bool
  | .jni _ => s.frame.all fun f => f.child ≠ c || f.method = .timeout || f.pc ≠ .containsKey ||
      (s.objs c).all fun sp => sp.stage = .java && (f.method = .exit || !done sp.child)
  | _ => true

/-- Pids are not reused, listeners are set and return normally, and each event of the child is in
time. -/
def delivers (c : ObjId) (s : State) (l : Label) : Bool :=
  orderly s l && heard s c l && inTime s c l

/-- A step of a run that delivers the events of the child. -/
abbrev Delivers (c : ObjId) (s : State) (l : Label) : Prop := delivers c s l = true

theorem Delivers.orderly (hC : Delivers c s l) : orderly s l = true := by
  simp only [Delivers, delivers, Bool.and_eq_true] at hC
  exact hC.1.1

theorem Delivers.heard {t : Tid} {mem : Uninit} {now : Date}
    (hC : Delivers s.next s (.step t mem now)) {call : Call} (hc : s.calls t = some call)
    (hpc : call.pc = .create) {k : JniCallback} (hk : k ≠ .timeout) :
    ((s.puppies call.puppy).listenerOf k).isSome := by
  simp only [Delivers, delivers, Bool.and_eq_true, Manager.heard, hc, Option.all_some, hpc] at hC
  have := hC.1.2
  cases k <;> simp_all

theorem Delivers.inTime {now : Date} (hC : Delivers c s (.jni now)) {f : Frame}
    (hf : s.frame = some f) (hc : f.child = c) (hm : f.method ≠ .timeout)
    (hpc : f.pc = .containsKey) {sp : Spawn} (hsp : s.objs c = some sp) :
    sp.stage = .java ∧ (f.method = .exit ∨ done sp.child = false) := by
  simp only [Delivers, delivers, Bool.and_eq_true, Manager.inTime, hf, Option.all_some] at hC
  simpa [hc, hm, hpc, hsp] using hC.2

/-! ### The callback of the child -/

/-- A callback that is past `containsKey` belongs to a child that is in the Java map. -/
def Passed (s : State) (c : ObjId) : Prop :=
  ∀ f sp, s.frame = some f → f.child = c → f.method ≠ .timeout → f.pc ≠ .containsKey →
    s.objs c = some sp → sp.stage = .java

theorem step_passed (v : Inv s) (hC : Delivers c s l) (p : Passed s c) (hs : Step s l s' os) :
    Passed s' c := by
  intro f sp' hf hc hm hpc hsp'
  rcases frame_back hs hf with ⟨f₀, hf₀, hff, hmove⟩ | ⟨hck, -⟩
  · have hc₀ : f₀.child = c := by rw [← hc, hff]
    have hm₀ : f₀.method ≠ .timeout := by rwa [hff] at hm
    obtain ⟨sp, hsp, -⟩ := v.frames.obj f₀ hf₀
    rw [hc₀] at hsp
    obtain ⟨sp₁, hsp₁, hl⟩ := step_later v.objects v.calls hs hsp
    cases hsp'.symm.trans hsp₁
    by_cases hck : f₀.pc = .containsKey
    · rcases hmove with hsame | hin | ⟨now, rfl⟩
      · exact absurd (hsame.trans hck) hpc
      · rw [hck] at hin
        cases hin
      · exact hl.java (hC.inTime hf₀ hc₀ hm₀ hck hsp).1
    · exact hl.java (p f₀ sp hf₀ hc₀ hm₀ hck hsp)
  · exact absurd hck hpc

/-- A run that delivers the events of a child lets its exit callback wait for the `put`. -/
theorem run_passed {puppies : PuppyId → List (Option JString) × StringTable}
    {h : History Label Event} (r : machine.RunWhere (Delivers c) (.init puppies) h s) :
    Passed s c := by
  refine r.inv (fun _ s => Passed s c) (fun f _ hf => by cases hf) ?_
  intro h s s' l os r hC hs p
  exact step_passed (run_inv r) hC p (step_inv hs).2

theorem Delivers.registered {puppies : PuppyId → List (Option JString) × StringTable}
    {h : History Label Event} (r : machine.RunWhere (Delivers c) (.init puppies) h s) :
    Registered s c := by
  refine run_registered c (r.imp fun {h s l} r hC => ⟨hC.orderly, ?_⟩)
  intro now f sp _ hf hc hpc hsp
  have hm := (run_inv r).frames.ofExit f hf (by rw [hpc]; rfl)
  exact run_passed r f sp hf hc (by rw [hm]; decide) (by rw [hpc]; decide) hsp

/-! ### The listeners -/

/-- The `DoryProcess` of the child has its listeners. -/
def Hears (s : State) (c : ObjId) : Prop :=
  ∀ sp k, s.objs c = some sp → k ≠ .timeout → ((s.puppies sp.puppy).listenerOf k).isSome

theorem step_hears (v : Inv s) (hC : Delivers c s l) (hh : Hears s c) (hs : Step s l s' os) :
    Hears s' c := by
  intro sp' k hsp' hk
  refine listener_stays hs ?_
  cases hsp : s.objs c with
  | some sp =>
      obtain ⟨sp₁, hsp₁, hl⟩ := step_later v.objects v.calls hs hsp
      cases hsp'.symm.trans hsp₁
      rw [hl.puppy]
      exact hh sp k hsp hk
  | none =>
      cases obj_change hs hsp' with
      | new hc hpc hn =>
          subst hn
          exact hC.heard hc hpc hk
      | same h _ | put _ h | spawn _ _ h | callback h => rw [hsp] at h; cases h

/-! ### What the exit callback writes -/

/-- What an exit callback has written when it is at a place before the listener. -/
def Noted (p : DoryProcess) (f : Frame) : Prop :=
  ∃ code signal, f.args = .status code signal ∧
    match f.pc with
    | .setSignal => p.code = code
    | .setExitedAt => p.code = code ∧ p.signal = signal
    | .nullCheck | .call => p.code = code ∧ p.signal = signal ∧ p.exitedAt.isSome
    | _ => True

theorem Noted.of_eq {p p' : DoryProcess} {f : Frame} (h : Noted p f) (hc : p'.code = p.code)
    (hg : p'.signal = p.signal) (hx : p'.exitedAt = p.exitedAt) : Noted p' f := by
  obtain ⟨code, signal, hargs, hpc⟩ := h
  exact ⟨code, signal, hargs, by rwa [hc, hg, hx]⟩

theorem Noted.later {p : DoryProcess} {f : Frame} {pc : JniPc} (h : Noted p f)
    (hpc : pc.hasFound = false ∨ pc = .setCode ∨ f.pc = .nullCheck ∧ pc = .call) :
    Noted p { f with pc := pc } := by
  obtain ⟨code, signal, hargs, hf⟩ := h
  refine ⟨code, signal, hargs, ?_⟩
  rcases hpc with hpc | rfl | ⟨hpc, rfl⟩
  · cases pc <;> trivial
  · trivial
  · rw [hpc] at hf
    exact hf

/-- A write of an exit callback. -/
theorem Noted.write {p : DoryProcess} {f : Frame} {now : Date} {w : Write} {pc : JniPc}
    (h : Noted p f) (hw : f.write? now = some (w, pc)) :
    Noted (p.write w) { f with pc := pc } := by
  obtain ⟨code, signal, hargs, hf⟩ := h
  refine ⟨code, signal, hargs, ?_⟩
  simp only [Frame.write?, hargs] at hw
  cases hpc : f.pc with
  | setCode =>
      rw [hpc] at hw
      cases hw
      rfl
  | setSignal =>
      rw [hpc] at hw hf
      cases hw
      exact ⟨hf, rfl⟩
  | setExitedAt =>
      rw [hpc] at hw hf
      cases hw
      exact ⟨hf.1, hf.2, rfl⟩
  | _ => rw [hpc] at hw; cases hw

theorem raised_status {o : DoryProcessSpawn JniCallback} {i : Input} {args : Args}
    (h : raised o i = some (.exit, args)) : ∃ e g, args = .status e g := by
  cases i with
  | exitCb e g =>
      simp only [raised, Option.ite_none_right_eq_some, Option.some.injEq, Prod.mk.injEq] at h
      exact ⟨e, g, h.2.2.symm⟩
  | stdoutCb nread buf => simp [raised] at h
  | stderrCb nread buf =>
      simp only [raised] at h
      split at h
      · cases h
      · simp only [Option.ite_none_right_eq_some, Option.some.injEq, Prod.mk.injEq] at h
        exact ⟨_, _, h.2.2.symm⟩
  | _ => cases h

/-- The entry a callback finds is that of its child. -/
theorem Distinct.owner (d : Distinct s) (v : Inv s) {f : Frame} {sp : Spawn} {e : JavaEntry}
    (hf : s.frame = some f) (hm : f.method ≠ .timeout) (hsp : s.objs f.child = some sp)
    (he : s.javaList f.pid = some e) : e.puppy = sp.puppy := by
  obtain ⟨sp₀, hsp₀, hborn, -⟩ := v.frames.obj f hf
  cases hsp.symm.trans hsp₀
  obtain ⟨hb, hpid⟩ := hborn hm
  obtain ⟨sp', hsp', -, hp', hb', hpid'⟩ := v.entries.java f.pid e he
  rw [d.one _ _ _ _ hsp' hsp hb' hb (hpid'.trans hpid)] at hsp'
  cases hsp.symm.trans hsp'
  exact hp'.symm

/-- An exit callback of the child has written what it has passed. -/
def ExitNoted (s : State) (c : ObjId) : Prop :=
  ∀ f sp, s.frame = some f → f.child = c → f.method = .exit → s.objs c = some sp →
    Noted (s.puppies sp.puppy) f

theorem step_exitNoted (v : Inv s) (d : Distinct s) (n : ExitNoted s c) (hs : Step s l s' os) :
    ExitNoted s' c := by
  intro f sp' hf hc hm hsp'
  -- the callback was there, of the same `DoryProcess`
  have was {f₀ : Frame} {pc : JniPc} (hf₀ : s.frame = some f₀) (hff : f = { f₀ with pc := pc }) :
      ∃ sp, s.objs c = some sp ∧ sp'.puppy = sp.puppy ∧ Noted (s.puppies sp'.puppy) f₀ := by
    subst hff
    obtain ⟨sp, hsp, -⟩ := v.frames.obj f₀ hf₀
    have hc₀ : f₀.child = c := hc
    rw [hc₀] at hsp
    obtain ⟨sp₁, hsp₁, hl⟩ := step_later v.objects v.calls hs hsp
    cases hsp'.symm.trans hsp₁
    exact ⟨sp, hsp, hl.puppy, hl.puppy ▸ n f₀ sp hf₀ hc₀ hm hsp⟩
  have same (q : DoryProcess → DoryProcess) {p : PuppyId} (hn : Noted (s.puppies sp'.puppy) f)
      (hq : ∀ p, (q p).code = p.code ∧ (q p).signal = p.signal ∧ (q p).exitedAt = p.exitedAt) :
      Noted (update s.puppies p (q (s.puppies p)) sp'.puppy) f := by
    by_cases hp : sp'.puppy = p
    · subst hp
      rw [update_self]
      exact hn.of_eq (hq _).1 (hq _).2.1 (hq _).2.2
    · rwa [update_of_ne hp]
  cases hs with
  | @set p x =>
      obtain ⟨sp, hsp, hp, hn⟩ := was hf rfl
      exact same (·.apply x) hn fun p => p.apply_exit x
  | setTimeout | setPid | setStartedAt =>
      obtain ⟨sp, hsp, hp, hn⟩ := was hf rfl
      exact same (·.write _) hn fun _ => ⟨rfl, rfl, rfl⟩
  | @callbackInvoke c₁ i sp₁ ch as k args pid hnone hsp hst hinv =>
      cases hf
      rw [invoked_eq (v.objects.reached c₁ sp₁ hsp).2 hst, Option.map_eq_some_iff] at hinv
      obtain ⟨⟨k, args⟩, hk, ⟨⟩⟩ := hinv
      obtain rfl : k = .exit := hm
      obtain ⟨e, g, rfl⟩ := raised_status hk
      exact ⟨e, g, rfl, trivial⟩
  | @jniMove now f₀ pc' hf₀ hmove =>
      cases hf
      obtain ⟨sp, hsp, hp, hn⟩ := was hf₀ rfl
      refine hn.later ?_
      have hm₀ : f₀.method = .exit := hm
      generalize f₀.pc = pc at hmove
      cases hmove with
      | contains => exact .inr (.inl (by rw [Frame.found, if_pos hm₀]))
      | absent | noListener => exact .inl f₀.after_pc.2
      | listener => exact .inr (.inr ⟨rfl, rfl⟩)
  | @write now f₀ w pc' e hf₀ hw he =>
      cases hf
      obtain ⟨sp, hsp, hp, hn⟩ := was hf₀ rfl
      have howner := d.owner v hf₀ (by rw [show f₀.method = .exit from hm]; decide)
        (show s.objs f₀.child = some sp from hc ▸ hsp) he
      rw [hp, ← howner] at hn ⊢
      dsimp only
      rw [update_self]
      exact hn.write hw
  | listener hf₀ hpc =>
      cases hf
      obtain ⟨sp, hsp, hp, hn⟩ := was hf₀ rfl
      exact hn.later (.inl rfl)
  | remove hf₀ | erase hf₀ =>
      cases hf
      obtain ⟨sp, hsp, hp, hn⟩ := was hf₀ rfl
      exact hn.later (.inl rfl)
  | tail => cases hf
  | listenerReturns hf₀ =>
      cases hf
      obtain ⟨sp, hsp, hp, hn⟩ := was hf₀ rfl
      exact hn.later (.inl (Frame.after_pc _).2)
  | nullPointer hf₀ | listenerThrows hf₀ =>
      cases hf
      obtain ⟨sp, hsp, hp, hn⟩ := was hf₀ rfl
      exact hn.later (.inl (Frame.thrown_pc _).2)
  | _ =>
      obtain ⟨sp, hsp, hp, hn⟩ := was hf rfl
      exact hn

/-! ### What is delivered -/

/-- A listener called for an event of the child: the event, the `DoryProcess`, the arguments. -/
def Event.delivered? (c : ObjId) : Event → Option (String × PuppyId × JArgs)
  | .listener p _ k _ args c' =>
      if c' = c ∧ k ≠ .timeout then some (k.name, p, args) else none
  | _ => none

/-- The listeners called for the events of the child. -/
def delivered (c : ObjId) (os : List Event) : List (String × PuppyId × JArgs) :=
  os.filterMap (Event.delivered? c)

/-- What the listeners of a `DoryProcess` are to get of what the child emits. -/
def due (c : ObjId) (p : PuppyId) (os : List Event) : List (String × PuppyId × JArgs) :=
  ((emitted c os).filter fun x => x.1 ≠ "timeout").map fun x => (x.1, p, jniArgs x.2)

/-- The places of a method before the listener. -/
def JniPc.undelivered (pc : JniPc) : Bool := pc = .containsKey || pc.hasFound

/-- The event of the child that is on its way to the listener. -/
def onItsWay (s : State) (c : ObjId) (p : PuppyId) : List (String × PuppyId × JArgs) :=
  match s.frame with
  | some f =>
      if f.child = c ∧ f.method ≠ .timeout ∧ f.pc.undelivered = true then
        [(f.method.name, p, f.args)]
      else []
  | none => []

@[simp] theorem delivered_append (c : ObjId) (os os' : List Event) :
    delivered c (os ++ os') = delivered c os ++ delivered c os' := List.filterMap_append

@[simp] theorem due_append (c : ObjId) (p : PuppyId) (os os' : List Event) :
    due c p (os ++ os') = due c p os ++ due c p os' := by
  simp [due]

theorem delivered_acts (c' : ObjId) (as : List (Act JniCallback)) :
    delivered c (as.map (.act c')) = [] := by
  simp [delivered, Event.delivered?]

/-- What a step adds to what is due. -/
theorem step_due (ok : Objects s) (hs : Step s l s' os) (p : PuppyId) :
    due c p os = match raisedBy c s l with
      | some (k, args) => if k ≠ .timeout then [(k.name, p, jniArgs args)] else []
      | none => [] := by
  rw [due, step_emitted ok hs]
  cases raisedBy c s l with
  | none => rfl
  | some x =>
      obtain ⟨k, args⟩ := x
      cases k <;> simp [JniCallback.name]

/-- An event of the child that is looked for in time is found, and the listener it is for is that
of the `DoryProcess` of the child. -/
theorem Delivers.present (hC : Delivers c s (.jni now)) (v : Inv s) (g : Registered s c)
    {f : Frame} (hf : s.frame = some f) (hc : f.child = c) (hm : f.method ≠ .timeout)
    (hpc : f.pc = .containsKey) : (s.javaList f.pid).isSome := by
  obtain ⟨sp, hsp, hborn, -⟩ := v.frames.obj f hf
  obtain ⟨hb, hpid⟩ := hborn hm
  rw [hc] at hsp
  obtain ⟨hst, hin⟩ := hC.inTime hf hc hm hpc hsp
  obtain ⟨e, he⟩ := (g.java sp hsp hb).mpr <| by
    rcases hin with hexit | hd
    · simp [inJava, hst, exiting, hf, hc, hexit, hpc, JniPc.beforeRemove]
    · simp [inJava, hst, hd]
  rw [hpid, he]
  rfl

theorem onItsWay_of {f : Frame} {p : PuppyId} (hf : s.frame = some f) : onItsWay s c p =
    if f.child = c ∧ f.method ≠ .timeout ∧ f.pc.undelivered = true then
      [(f.method.name, p, f.args)] else [] := by
  rw [onItsWay, hf]

/-- The callback goes on, on the same side of the listener. -/
theorem onItsWay_moved {f : Frame} {pc : JniPc} {p : PuppyId} (hf : s.frame = some f)
    (hf' : s'.frame = some { f with pc := pc })
    (h : f.child = c → f.method ≠ .timeout → pc.undelivered = f.pc.undelivered) :
    onItsWay s' c p = onItsWay s c p := by
  rw [onItsWay_of hf, onItsWay_of hf']
  by_cases hc : f.child = c
  · by_cases hm : f.method = .timeout
    · simp [hm]
    · simp [hc, hm, h hc hm]
  · simp [hc]

theorem onItsWay_nil {f : Frame} {p : PuppyId} (hf : s.frame = some f)
    (h : f.pc.undelivered = false) : onItsWay s c p = [] := by
  simp [onItsWay_of hf, h]

/-- One step adds to what is delivered, and to what is on its way, what it adds to what is due. -/
theorem step_delivers (v : Inv s) (d : Distinct s) (g : Registered s c) (hh : Hears s c)
    (hC : Delivers c s l) (hs : Step s l s' os) {p : PuppyId}
    (hp : ∀ sp, s'.objs c = some sp → sp.puppy = p) :
    onItsWay s c p ++ due c p os = delivered c os ++ onItsWay s' c p := by
  rw [step_due v.objects hs]
  -- a callback of the child has the `DoryProcess` of the child
  have owner {f : Frame} (hf : s.frame = some f) (hc : f.child = c) :
      ∃ sp, s.objs c = some sp ∧ sp.puppy = p := by
    obtain ⟨sp, hsp, -⟩ := v.frames.obj f hf
    rw [hc] at hsp
    obtain ⟨sp', hsp', hl⟩ := step_later v.objects v.calls hs hsp
    exact ⟨sp, hsp, hl.puppy.symm.trans (hp sp' hsp')⟩
  -- a step that raises nothing of the child passes on what it delivers
  have passes {x : List (String × PuppyId × JArgs)} (hraised : raisedBy c s l = none)
      (hway : onItsWay s c p = x ++ onItsWay s' c p) (hdel : delivered c os = x) :
      (onItsWay s c p ++ match raisedBy c s l with
        | some (k, args) => if k ≠ .timeout then [(k.name, p, jniArgs args)] else []
        | none => []) = delivered c os ++ onItsWay s' c p := by
    rw [hraised, hway, hdel, List.append_nil]
  have quiet (hraised : raisedBy c s l = none) (hdel : delivered c os = [])
      (hway : onItsWay s' c p = onItsWay s c p) := passes hraised hway.symm hdel
  cases hs with
  | spawn => exact quiet rfl (delivered_acts _ _) rfl
  | @callback c₁ i sp₁ ch as hnone hsp hst hinv =>
      refine quiet ?_ (delivered_acts _ _) rfl
      by_cases hc : c₁ = c
      · subst hc
        rw [invoked_eq (v.objects.reached c₁ sp₁ hsp).2 hst] at hinv
        rw [raisedBy_callback hsp, Option.map_eq_none_iff.mp hinv]
      · simp [raisedBy, hc]
  | @callbackInvoke c₁ i sp₁ ch as k args pid hnone hsp hst hinv =>
      rw [invoked_eq (v.objects.reached c₁ sp₁ hsp).2 hst, Option.map_eq_some_iff] at hinv
      obtain ⟨⟨k, args⟩, hk, ⟨⟩⟩ := hinv
      rw [delivered_acts, List.nil_append]
      by_cases hc : c₁ = c
      · subst hc
        rw [raisedBy_callback hsp, hk]
        simp [onItsWay, hnone, JniPc.undelivered]
      · simp [onItsWay, hnone, raisedBy, hc]
  | @jniMove now f pc' hf hm =>
      refine quiet rfl rfl (onItsWay_moved hf rfl fun hc hmethod => ?_)
      generalize hpc : f.pc = pc at hm
      cases hm with
      | contains =>
          unfold Frame.found
          split <;> rfl
      | absent hnone =>
          rw [hC.present v g hf hc hmethod hpc] at hnone
          cases hnone
      | listener => rfl
      | @noListener e he hnone =>
          obtain ⟨sp, hsp, -⟩ := owner hf hc
          rw [d.owner v hf hmethod (hc.symm ▸ hsp) he, hh sp f.method hsp hmethod] at hnone
          cases hnone
  | @write now f w pc' e hf hw he =>
      obtain ⟨-, hfound, hpc'⟩ := Frame.write_pc hw
      refine quiet rfl rfl (onItsWay_moved hf rfl fun _ _ => ?_)
      rcases hpc' with rfl | rfl | rfl <;> simp [JniPc.undelivered, hfound] <;> rfl
  | @listener now f e lis hf hpc he hl =>
      refine passes rfl (x := if f.child = c ∧ f.method ≠ .timeout then
        [(f.method.name, p, f.args)] else []) ?_ ?_
      · rw [onItsWay_of hf, onItsWay_nil rfl rfl, hpc]
        simp [JniPc.undelivered, JniPc.hasFound]
      · by_cases hc : f.child = c ∧ f.method ≠ .timeout
        · obtain ⟨sp, hsp, rfl⟩ := owner hf hc.1
          simp [delivered, Event.delivered?, hc, d.owner v hf hc.2 (hc.1.symm ▸ hsp) he]
        · simp only [delivered, Event.delivered?, List.filterMap_cons, List.filterMap_nil,
            if_neg hc]
  | nullPointer hf hpc hnone => exact (d.not_nullPointer v hf hpc hnone).elim
  | remove hf hpc | erase hf hpc =>
      exact quiet rfl rfl (onItsWay_moved hf rfl fun _ _ => by rw [hpc]; rfl)
  | tail hf hpc => exact passes rfl (onItsWay_nil hf (by rw [hpc]; rfl)) (delivered_acts _ _)
  | @listenerReturns f hf hpc =>
      refine quiet rfl rfl (onItsWay_moved hf rfl fun _ _ => ?_)
      rw [Frame.after, hpc]
      split <;> rfl
  | listenerThrows =>
      have := hC.orderly
      simp [orderly, Label.returns] at this
  | javaPut =>
      refine quiet rfl ?_ rfl
      split <;> rfl
  | _ => exact quiet rfl rfl rfl

section
variable {puppies : PuppyId → List (Option JString) × StringTable} {h : History Label Event}
  (r : machine.RunWhere (Delivers c) (.init puppies) h s)
include r

theorem run_orderly : Distinct s := run_distinct (r.mono fun _ _ hC => orderly_fresh hC.orderly)

theorem run_hears : Hears s c := by
  refine r.inv (fun _ s => Hears s c) (fun sp k hsp => by cases hsp) ?_
  intro h s s' l os r hC hs hh
  exact step_hears (run_inv r) hC hh (step_inv hs).2

theorem run_exitNoted : ExitNoted s c := by
  refine r.inv (fun _ s => ExitNoted s c) (fun f sp hf => by cases hf) ?_
  intro h s s' l os r hC hs n
  exact step_exitNoted (run_inv r) (run_orderly r) n (step_inv hs).2

/-- What is due is delivered or on its way. -/
theorem run_delivers {p : PuppyId} (hp : ∀ sp, s.objs c = some sp → sp.puppy = p) :
    due c p h.outputs = delivered c h.outputs ++ onItsWay s c p := by
  revert hp
  refine r.inv (fun h s => (∀ sp, s.objs c = some sp → sp.puppy = p) →
    due c p h.outputs = delivered c h.outputs ++ onItsWay s c p) (fun _ => rfl) ?_
  intro h s s' l os r hC hs ih hp
  have v := run_inv r
  obtain ⟨-, hs⟩ := step_inv hs
  have hp₀ (sp : Spawn) (hsp : s.objs c = some sp) : sp.puppy = p := by
    obtain ⟨sp', hsp', hl⟩ := step_later v.objects v.calls hs hsp
    exact hl.puppy.symm.trans (hp sp' hsp')
  calc due c p (h ++ [(l, os)]).outputs
      = due c p h.outputs ++ due c p os := by simp
    _ = delivered c h.outputs ++ (onItsWay s c p ++ due c p os) := by
        rw [ih hp₀, List.append_assoc]
    _ = delivered c h.outputs ++ (delivered c os ++ onItsWay s' c p) := by
        rw [step_delivers v (run_orderly r) (Delivers.registered r) (run_hears r) hC hs hp]
    _ = delivered c (h ++ [(l, os)]).outputs ++ onItsWay s' c p := by simp

end

/-- **Lossless delivery.**  In every run in which pids are not reused, listeners return normally,
the `DoryProcess` of the child has its listeners, and each event of the child is in time: whenever
no callback of the child runs, the listeners of its `DoryProcess` have got each chunk and each exit
event the child has emitted, once and in order; and when the exit listener is called, `code`,
`signal` and `exitedAt` are set. -/
theorem delivered_all {puppies : PuppyId → List (Option JString) × StringTable}
    {h : History Label Event} (r : machine.RunWhere (Delivers c) (.init puppies) h s)
    {sp : Spawn} (hsp : s.objs c = some sp) :
    ((∀ f, s.frame = some f → f.child ≠ c) →
      delivered c h.outputs = due c sp.puppy h.outputs) ∧
    ∀ l s' os, s.step l = some (s', os) → ∀ p lis pid args,
      Event.listener p lis .exit pid args c ∈ os → pid = sp.child.obj.process.pid ∧
        ∃ code signal, args = .status code signal ∧ (s.puppies p).code = code ∧
          (s.puppies p).signal = signal ∧ (s.puppies p).exitedAt.isSome := by
  have v := run_inv r
  refine ⟨fun hidle => ?_, fun l s' os hs p lis pid args he => ?_⟩
  · have hway : onItsWay s c sp.puppy = [] := by
      cases hf : s.frame with
      | none => rw [onItsWay, hf]
      | some f => rw [onItsWay_of hf, if_neg fun h => hidle f hf h.1]
    rw [run_delivers r (p := sp.puppy) fun sp' hsp' => by cases hsp.symm.trans hsp'; rfl, hway,
      List.append_nil]
  · obtain ⟨-, hs⟩ := step_inv hs
    cases hs with
    | @listener now f e lis' hf hpc he' hl =>
        obtain ⟨rfl, rfl, hm, rfl, rfl, rfl⟩ := Event.listener.inj (List.mem_singleton.mp he)
        have hnot : f.method ≠ .timeout := by rw [← hm]; decide
        obtain ⟨sp', hsp', hborn, -⟩ := v.frames.obj f hf
        cases hsp.symm.trans hsp'
        rw [(run_orderly r).owner v hf hnot hsp he']
        obtain ⟨code, signal, hargs, hnoted⟩ := run_exitNoted r f sp hf rfl hm.symm hsp
        rw [hpc] at hnoted
        exact ⟨(hborn hnot).2, code, signal, hargs, hnoted⟩
    | spawn | callback | callbackInvoke | tail =>
        obtain ⟨_, -, h⟩ := List.mem_map.mp he
        cases h
    | javaPut =>
        split at he
        · cases he
        · cases List.mem_singleton.mp he
    | javaThrow | setStartedAt | killDeref | nullDeref | write | remove | erase =>
        cases List.mem_singleton.mp he
    | _ => cases he

/-- The three listeners of a `DoryProcess`. -/
def listens (p : PuppyId) : List Label :=
  [.set p (.listener .stdout (some 1)), .set p (.listener .stderr (some 2)),
    .set p (.listener .exit (some 3))]

theorem delivered_all_example : ∃ h s sp,
    machine.RunWhere (Delivers 0) (.init examplePuppies) h s ∧
    h.inputs = listens 0 ++ startsWith (.caller 0) 0 7 ++
      [.callback 0 (.stdoutCb 2 [104, 105]), .jni 0, .jni 0, .jni 0, .listenerReturns, .jni 0] ++
      [.callback 0 (.stderrCb UV_EOF []), .callback 0 (.exitCb 3 0), .jni 0, .jni 0, .jni 0,
        .jni 0, .jni 0, .jni 0, .listenerReturns, .jni 0, .jni 0, .jni 0] ∧
    s.objs 0 = some sp ∧ sp.puppy = 0 ∧ delivered 0 h.outputs = due 0 sp.puppy h.outputs ∧
    delivered 0 h.outputs = [("stdout", 0, .bytes [104, 105]), ("exit", 0, .status 3 0)] := by
  have r := Machine.execWhere_run (M := machine) (C := delivers 0) (s := .init examplePuppies)
    (listens 0 ++ startsWith (.caller 0) 0 7 ++
      [.callback 0 (.stdoutCb 2 [104, 105]), .jni 0, .jni 0, .jni 0, .listenerReturns, .jni 0] ++
      [.callback 0 (.stderrCb UV_EOF []), .callback 0 (.exitCb 3 0), .jni 0, .jni 0, .jni 0,
        .jni 0, .jni 0, .jni 0, .listenerReturns, .jni 0, .jni 0, .jni 0]) rfl
  refine ⟨_, _, _, r, rfl, rfl, rfl, (delivered_all r rfl).1 ?_, rfl⟩
  intro f hf
  cases hf

/-- **A chunk before the `put`.**  The child writes while its call is on its way back from
`spawn()`: the method finds no entry and drops the chunk. -/
theorem chunk_before_put : ∃ h s sp, machine.Run (.init examplePuppies) h s ∧
    h.inputs = listens 0 ++ spawnsWith (.caller 0) 0 7 ++
      [.callback 0 (.stdoutCb 2 [104, 105]), .jni 0, .jni 0, go (.caller 0), go (.caller 0),
        go (.caller 0), go (.caller 0)] ∧
    s.objs 0 = some sp ∧ s.frame = none ∧ .returned (.caller 0) 0 7 ∈ h.outputs ∧
    due 0 sp.puppy h.outputs = [("stdout", 0, .bytes [104, 105])] ∧ delivered 0 h.outputs = [] := by
  refine ⟨_, _, _, Machine.exec_run (M := machine) (s := .init examplePuppies)
    (listens 0 ++ spawnsWith (.caller 0) 0 7 ++
      [.callback 0 (.stdoutCb 2 [104, 105]), .jni 0, .jni 0, go (.caller 0), go (.caller 0),
        go (.caller 0), go (.caller 0)]) rfl, rfl, rfl, rfl, ?_, rfl, rfl⟩
  exact List.mem_of_elem_eq_true rfl

end Dorypuppy.Manager

import Dorypuppy.Java.Strings

/-!
# Java — the environment of the child

`puppySpawn` writes each entry of the map as `key=value`; the native `spawn` copies the bytes; and
the child finds them in its `environ`.  `readEntry` reads such an entry back.

`environment_read_back`: with at least one entry the child finds exactly the map.  With none the
array is null, as the guard in `puppySpawn` says, and the child has the environment of its parent.
-/

namespace Dorypuppy

open Support (History)

/-- The units of bytes in modified UTF-8. -/
def utfUnits : CString → JString
  | [] => []
  | a :: l =>
      if a.toNat < 0x80 then .ofNat a.toNat :: utfUnits l
      else if a.toNat < 0xE0 then
        match l with
        | b :: l => .ofNat (a.toNat % 32 * 64 + b.toNat % 64) :: utfUnits l
        | [] => []
      else
        match l with
        | b :: c :: l =>
            .ofNat (a.toNat % 16 * 4096 + b.toNat % 64 * 64 + c.toNat % 64) :: utfUnits l
        | _ => []

/-- An entry of `environ`, split at its first `=`. -/
def readEntry (entry : CString) : JString × JString :=
  (utfUnits (entry.takeWhile (· ≠ 0x3D)), utfUnits (entry.dropWhile (· ≠ 0x3D)).tail)

/-- The `environ` of the child of `uv_spawn`: without an array, that of its parent. -/
def childEnviron (parent : List CString) (options : UvProcessOptions) : List CString :=
  match options.env with
  | none => parent
  | some env => (env.takeWhile Option.isSome).reduceOption

/-- What the child finds in its environment. -/
def childEnvironment (parent : List CString) (options : UvProcessOptions) :
    List (JString × JString) :=
  (childEnviron parent options).map readEntry

/-! ### Reading back -/

theorem utfUnits_one {a : UInt8} {l : CString} (h : a.toNat < 0x80) :
    utfUnits (a :: l) = .ofNat a.toNat :: utfUnits l := by
  rw [utfUnits.eq_def]
  exact if_pos h

theorem utfUnits_two {a b : UInt8} {l : CString} (h : 0x80 ≤ a.toNat) (h' : a.toNat < 0xE0) :
    utfUnits (a :: b :: l) = .ofNat (a.toNat % 32 * 64 + b.toNat % 64) :: utfUnits l := by
  rw [utfUnits.eq_def]
  exact (if_neg (by omega)).trans (if_pos h')

theorem utfUnits_three {a b c : UInt8} {l : CString} (h : 0xE0 ≤ a.toNat) :
    utfUnits (a :: b :: c :: l) =
      .ofNat (a.toNat % 16 * 4096 + b.toNat % 64 * 64 + c.toNat % 64) :: utfUnits l := by
  rw [utfUnits.eq_def]
  exact (if_neg (by omega)).trans (if_neg (by omega))

theorem utfUnits_unit (u : UInt16) (l : CString) :
    utfUnits (utf8Unit u ++ l) = u :: utfUnits l := by
  have hlt := u.toNat_lt
  rw [utf8Unit_eq]
  split
  · rename_i h
    have ha : (UInt8.ofNat u.toNat).toNat = u.toNat := byte_toNat (by omega)
    rw [List.singleton_append, utfUnits_one (by omega), ha, UInt16.ofNat_toNat]
  · split
    · have ha : (UInt8.ofNat (u.toNat / 64 + 0xC0)).toNat = u.toNat / 64 + 0xC0 :=
        byte_toNat (by omega)
      have hb : (UInt8.ofNat (u.toNat % 64 + 0x80)).toNat = u.toNat % 64 + 0x80 :=
        byte_toNat (by omega)
      have hu : (u.toNat / 64 + 0xC0) % 32 * 64 + (u.toNat % 64 + 0x80) % 64 = u.toNat := by omega
      rw [List.cons_append, List.singleton_append, utfUnits_two (by omega) (by omega), ha, hb, hu,
        UInt16.ofNat_toNat]
    · have ha : (UInt8.ofNat (u.toNat / 4096 + 0xE0)).toNat = u.toNat / 4096 + 0xE0 :=
        byte_toNat (by omega)
      have hb : (UInt8.ofNat (u.toNat / 64 % 64 + 0x80)).toNat = u.toNat / 64 % 64 + 0x80 :=
        byte_toNat (by omega)
      have hc : (UInt8.ofNat (u.toNat % 64 + 0x80)).toNat = u.toNat % 64 + 0x80 :=
        byte_toNat (by omega)
      have hu : (u.toNat / 4096 + 0xE0) % 16 * 4096 + (u.toNat / 64 % 64 + 0x80) % 64 * 64 +
          (u.toNat % 64 + 0x80) % 64 = u.toNat := by omega
      rw [List.cons_append, List.cons_append, List.singleton_append, utfUnits_three (by omega), ha,
        hb, hc, hu, UInt16.ofNat_toNat]

/-- Modified UTF-8 loses nothing. -/
theorem utfUnits_utfChars (s : JString) : utfUnits (getStringUTFChars s) = s := by
  induction s with
  | nil => rfl
  | cons u s ih =>
      rw [getStringUTFChars, List.flatMap_cons, utfUnits_unit, ← getStringUTFChars, ih]

/-- The byte of `=` is that of the character only. -/
theorem eq_of_mem_unit {u : UInt16} (h : 0x3D ∈ utf8Unit u) : u = 0x3D := by
  have hlt := u.toNat_lt
  have hbyte {n : Nat} (hn : n < 256) (e : (0x3D : UInt8) = .ofNat n) : 0x3D = n := by
    rw [← byte_toNat hn, ← e]
    rfl
  rw [utf8Unit_eq] at h
  split at h
  · have := hbyte (by omega) (List.mem_singleton.mp h)
    exact UInt16.toNat_inj.mp this.symm
  · split at h
    · simp only [List.mem_cons, List.not_mem_nil, or_false] at h
      rcases h with h | h
      · have := hbyte (by omega) h; omega
      · have := hbyte (by omega) h; omega
    · simp only [List.mem_cons, List.not_mem_nil, or_false] at h
      rcases h with h | h | h
      · have := hbyte (by omega) h; omega
      · have := hbyte (by omega) h; omega
      · have := hbyte (by omega) h; omega

/-- **An entry reads back.**  The value may contain `=`, the key may not. -/
theorem readEntry_utfChars {key value : JString} (h : 0x3D ∉ key) :
    readEntry (getStringUTFChars (key ++ 0x3D :: value)) = (key, value) := by
  have hsplit : getStringUTFChars (key ++ 0x3D :: value) =
      getStringUTFChars key ++ 0x3D :: getStringUTFChars value := by
    rw [getStringUTFChars, List.flatMap_append, List.flatMap_cons]
    rfl
  have hkey : ∀ b ∈ getStringUTFChars key, decide (b ≠ 0x3D) = true := by
    intro b hb
    obtain ⟨u, hu, hbu⟩ := List.mem_flatMap.mp hb
    refine decide_eq_true fun e => h ?_
    rwa [← eq_of_mem_unit (e ▸ hbu)]
  rw [readEntry, hsplit, List.takeWhile_append_of_pos hkey, List.dropWhile_append_of_pos hkey,
    List.takeWhile_cons_of_neg (by simp), List.dropWhile_cons_of_neg (by simp), List.append_nil,
    List.tail_cons, utfUnits_utfChars, utfUnits_utfChars]

theorem takeWhile_strings (l : List CString) :
    ((l.map some ++ [none]).takeWhile Option.isSome).reduceOption = l := by
  induction l with
  | nil => rfl
  | cons a l ih =>
      rw [List.map_cons, List.cons_append, List.takeWhile_cons_of_pos rfl]
      exact congrArg (a :: ·) ih

namespace DoryProcess

/-- **The child finds the map**, entry for entry, when it has an entry; otherwise the environment of
the parent. -/
theorem environment_read_back {p : DoryProcess}
    (hkeys : ∀ e ∈ p.environment.entries, 0x3D ∉ e.1) {mem : Uninit} {loop : LoopPtr}
    {c : Setup JniCallback} (hc : p.setup mem loop = some c)
    {h : History Input (Act JniCallback)} {s : Child JniCallback}
    (r : (Child.machine JniCallback).Run (Child.start c) h s) {o : UvProcessOptions}
    (ho : .uv (.spawn o) ∈ h.outputs) (parent : List CString) :
    childEnvironment parent o =
      if p.environment.entries = [] then parent.map readEntry else p.environment.entries := by
  have henv : o.env = c.env := by
    rw [(Child.run_spawn r).2 o ho]
    rfl
  have hsetup := (setup_eq hc).2.2.2
  rw [← henv] at hsetup
  by_cases hne : p.environment.entries = []
  · rw [if_pos hne] at hsetup ⊢
    rw [childEnvironment, childEnviron, hsetup]
  · have hmap : p.envArray.map (fun s => some (getStringUTFChars s)) =
        (p.envArray.map getStringUTFChars).map some := by rw [List.map_map]; rfl
    rw [if_neg hne] at hsetup ⊢
    rw [hmap] at hsetup
    simp only [childEnvironment, childEnviron, hsetup]
    rw [takeWhile_strings, envArray, List.map_map, List.map_map]
    conv => rhs; rw [← List.map_id p.environment.entries]
    exact List.map_congr_left fun e he => readEntry_utfChars (hkeys e he)

theorem environment_read_back_example : ∃ c h s o,
    (new [some [0x61]] ⟨[([0x4B], [0x3D, 0x56])], by decide⟩).setup (Setup.example 0).mem 1 =
      some c ∧
    (Child.machine JniCallback).Run (Child.start c) h s ∧ .uv (.spawn o) ∈ h.outputs ∧
    childEnvironment [[0x41, 0x3D, 0x42]] o = [([0x4B], [0x3D, 0x56])] := by
  refine ⟨_, _, _, _, rfl, Support.Machine.exec_run [.enter, .uvSpawn (.ok 7)] rfl,
    List.mem_singleton_self _, ?_⟩
  exact environment_read_back (p := new [some [0x61]] ⟨[([0x4B], [0x3D, 0x56])], by decide⟩)
    (by decide) rfl (Support.Machine.exec_run [.enter, .uvSpawn (.ok 7)] rfl)
    (List.mem_singleton_self _) [[0x41, 0x3D, 0x42]]

/-- **An empty map is no empty environment.**  The child finds the `A=B` of its parent. -/
theorem empty_environment : ∃ c h s o,
    (new [some [0x61]] ⟨[], .nil⟩).setup (Setup.example 0).mem 1 = some c ∧
    (Child.machine JniCallback).Run (Child.start c) h s ∧ .uv (.spawn o) ∈ h.outputs ∧
    childEnvironment [[0x41, 0x3D, 0x42]] o = [([0x41], [0x42])] := by
  refine ⟨_, _, _, _, rfl, Support.Machine.exec_run [.enter, .uvSpawn (.ok 7)] rfl,
    List.mem_singleton_self _, ?_⟩
  decide

end DoryProcess

end Dorypuppy

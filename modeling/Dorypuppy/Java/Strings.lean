import Mathlib.Algebra.Group.Nat.Defs
import Mathlib.Data.List.ReduceOption
import Dorypuppy.Support.Utf16
import Dorypuppy.Native.Outputs
import Dorypuppy.Java.DoryProcess

/-!
# Java — the bytes of a string

The native `spawn` passes the bytes of `GetStringUTFChars` on as they are.  They are the standard
UTF-8 of a string unit by unit (`utf8Unit_char`), but a pair of surrogates, which is one character
of four bytes, takes six (`utfChars_length`).

`utf8_iff`: what `uv_spawn` is given is the standard UTF-8 of the strings of a `DoryProcess`, and
reads back as these strings, exactly when no character of them is beyond `U+FFFF`.
-/

namespace Dorypuppy

open Support (Paired isSurrogate isHigh isLow utf16Decode utf16Encode pairChar)

/-- The standard UTF-8 of a Java string. -/
def standardUtf8 (s : JString) : CString := (utf16Decode s).flatMap String.utf8EncodeChar

/-- A C string read as UTF-8. -/
def fromUtf8 (b : CString) : Option JString :=
  b.toByteArray.utf8Decode?.map fun cs => utf16Encode cs.toList

theorem fromUtf8_standard {s : JString} (h : Paired s) : fromUtf8 (standardUtf8 s) = some s := by
  have : (standardUtf8 s).toByteArray = (utf16Decode s).utf8Encode := rfl
  rw [fromUtf8, this, List.utf8Decode?_utf8Encode, Option.map_some, Support.utf16Encode_decode h]

/-! ### One unit -/

theorem byte_toNat {n : Nat} (h : n < 256) : (UInt8.ofNat n).toNat = n := by
  rw [UInt8.toNat_ofNat']
  exact Nat.mod_eq_of_lt h

theorem or_toNat {a b : UInt8} {i k : Nat} (ha : a.toNat = 2 ^ i * k) (hb : b.toNat < 2 ^ i) :
    (a ||| b).toNat = b.toNat + a.toNat := by
  rw [UInt8.toNat_or, ha, Nat.add_comm, Nat.two_pow_add_eq_or_of_lt hb]

theorem low6_toNat (u : UInt16) : ((u &&& 0x3F).toUInt8).toNat = u.toNat % 64 := by
  have h : u.toNat &&& 63 = u.toNat % 64 := Nat.and_two_pow_sub_one_eq_mod u.toNat 6
  simp only [UInt16.toNat_toUInt8, UInt16.toNat_and, UInt16.reduceToNat, h]
  omega

theorem shift_toNat (u n : UInt16) (hn : n.toNat < 16) :
    (u >>> n).toNat = u.toNat / 2 ^ n.toNat := by
  rw [UInt16.toNat_shiftRight, Nat.mod_eq_of_lt hn, Nat.shiftRight_eq_div_pow]

/-- A byte after the first. -/
theorem tail_byte (u : UInt16) :
    (0x80 : UInt8) ||| (u &&& 0x3F).toUInt8 = .ofNat (u.toNat % 64 + 0x80) := by
  have h := low6_toNat u
  rw [← UInt8.toNat_inj, or_toNat (i := 6) (k := 2) rfl (by rw [h]; omega), h,
    byte_toNat (by omega)]
  rfl

/-- `utf8Unit` in numbers. -/
theorem utf8Unit_eq (u : UInt16) : utf8Unit u =
    if 0 < u.toNat ∧ u.toNat < 0x80 then [.ofNat u.toNat]
    else if u.toNat < 0x800 then [.ofNat (u.toNat / 64 + 0xC0), .ofNat (u.toNat % 64 + 0x80)]
    else [.ofNat (u.toNat / 4096 + 0xE0), .ofNat (u.toNat / 64 % 64 + 0x80),
      .ofNat (u.toNat % 64 + 0x80)] := by
  have hlt := u.toNat_lt
  simp only [utf8Unit, UInt16.lt_iff_toNat_lt, UInt16.reduceToNat]
  split
  · rename_i h
    rw [List.cons.injEq, ← UInt8.toNat_inj, UInt16.toNat_toUInt8,
      byte_toNat (by omega)]
    exact ⟨Nat.mod_eq_of_lt (by omega), rfl⟩
  · split
    · have h₁ : ((u >>> 6).toUInt8).toNat = u.toNat / 64 := by
        rw [UInt16.toNat_toUInt8, shift_toNat u 6 (by decide)]
        exact Nat.mod_eq_of_lt (by simp; omega)
      rw [tail_byte, List.cons.injEq, ← UInt8.toNat_inj,
        or_toNat (i := 6) (k := 3) rfl (by rw [h₁]; omega), h₁,
        byte_toNat (by omega)]
      exact ⟨rfl, rfl⟩
    · have h₁ : ((u >>> 12).toUInt8).toNat = u.toNat / 4096 := by
        rw [UInt16.toNat_toUInt8, shift_toNat u 12 (by decide)]
        exact Nat.mod_eq_of_lt (by simp; omega)
      have h₂ : (u >>> 6).toNat = u.toNat / 64 := shift_toNat u 6 (by decide)
      rw [tail_byte, tail_byte, h₂, List.cons.injEq, ← UInt8.toNat_inj,
        or_toNat (i := 4) (k := 14) rfl (by rw [h₁]; omega), h₁,
        byte_toNat (by omega)]
      exact ⟨rfl, rfl⟩

/-! ### One character -/

/-- A unit that is a character of its own has its standard bytes, `U+0000` apart. -/
theorem utf8Unit_char {u : UInt16} (h : isSurrogate u = false) (h0 : u ≠ 0) :
    utf8Unit u = String.utf8EncodeChar (.ofNat u.toNat) := by
  have hlt := u.toNat_lt
  have hpos : 0 < u.toNat := Nat.pos_of_ne_zero fun e => h0 (UInt16.toNat_inj.mp e)
  have hv : (Char.ofNat u.toNat).val.toNat = u.toNat := Support.toNat_unit h
  rw [utf8Unit_eq, String.utf8EncodeChar, hv]
  by_cases h₁ : u.toNat < 0x80
  · rw [if_pos ⟨hpos, h₁⟩, if_pos (show u.toNat ≤ 0x7F by omega)]
  · rw [if_neg (fun h => h₁ h.2), if_neg (show ¬ u.toNat ≤ 0x7F by omega)]
    by_cases h₂ : u.toNat < 0x800
    · rw [if_pos h₂, if_pos (show u.toNat ≤ 0x7FF by omega),
        Nat.mod_eq_of_lt (a := u.toNat / 64) (by omega)]
    · rw [if_neg h₂, if_neg (show ¬ u.toNat ≤ 0x7FF by omega),
        if_pos (show u.toNat ≤ 0xFFFF by omega),
        Nat.mod_eq_of_lt (a := u.toNat / 4096) (by omega)]

/-- A surrogate takes three bytes. -/
theorem utf8Unit_surrogate {u : UInt16} (h : isSurrogate u) : (utf8Unit u).length = 3 := by
  have : 0xD800 ≤ u.toNat := by
    simp only [isSurrogate, isHigh, isLow, Bool.or_eq_true, Bool.and_eq_true,
      decide_eq_true_eq] at h
    omega
  rw [utf8Unit_eq, if_neg (by omega), if_neg (by omega)]
  rfl

/-- The standard bytes of a pair are four. -/
theorem pairChar_length {u v : UInt16} (hu : isHigh u) (hv : isLow v) :
    (String.utf8EncodeChar (pairChar u v)).length = 4 := by
  have hn : (pairChar u v).val.toNat = _ := Support.toNat_pairChar hu hv
  rw [String.utf8EncodeChar, hn, if_neg (by omega), if_neg (by omega), if_neg (by omega)]
  rfl

/-! ### Strings -/

/-- The bytes `GetStringUTFChars` gives over the standard ones, one for each surrogate. -/
theorem utfChars_length {s : JString} (h : Paired s) (h0 : 0 ∉ s) :
    (getStringUTFChars s).length = (standardUtf8 s).length + s.countP isSurrogate := by
  induction h with
  | nil => rfl
  | @unit u s hu _ ih =>
      rw [List.mem_cons, not_or] at h0
      have := ih h0.2
      rw [getStringUTFChars, List.flatMap_cons, ← getStringUTFChars, standardUtf8,
        Support.decode_unit hu, List.flatMap_cons, ← standardUtf8, List.length_append,
        List.length_append, utf8Unit_char hu (Ne.symm h0.1), List.countP_cons, hu, if_neg (by simp)]
      omega
  | @pair u v s hu hv _ ih =>
      have hu' : isSurrogate u = true := by rw [isSurrogate, hu, Bool.true_or]
      have hv' : isSurrogate v = true := by rw [isSurrogate, hv, Bool.or_true]
      have := ih fun h => h0 (List.mem_cons_of_mem _ (List.mem_cons_of_mem _ h))
      rw [getStringUTFChars, List.flatMap_cons, List.flatMap_cons, ← getStringUTFChars,
        standardUtf8, Support.decode_pair hu, List.flatMap_cons, ← standardUtf8,
        List.length_append, List.length_append, List.length_append, utf8Unit_surrogate hu',
        utf8Unit_surrogate hv', pairChar_length hu hv, List.countP_cons, List.countP_cons, hu', hv']
      simp only [if_true]
      omega

theorem utfChars_of_noSurrogate {s : JString} (h : ∀ u ∈ s, isSurrogate u = false) (h0 : 0 ∉ s) :
    getStringUTFChars s = standardUtf8 s := by
  induction s with
  | nil => rfl
  | cons u s ih =>
      rw [List.mem_cons, not_or] at h0
      have hu := h u (List.mem_cons_self ..)
      rw [getStringUTFChars, List.flatMap_cons, ← getStringUTFChars, standardUtf8,
        Support.decode_unit hu, List.flatMap_cons, ← standardUtf8,
        utf8Unit_char hu (Ne.symm h0.1), ih (fun v hv => h v (List.mem_cons_of_mem _ hv)) h0.2]

/-- **When modified UTF-8 is the standard one.**  No character of the string is beyond `U+FFFF`. -/
theorem utfChars_standard_iff {s : JString} (h : Paired s) (h0 : 0 ∉ s) :
    getStringUTFChars s = standardUtf8 s ↔ ∀ u ∈ s, isSurrogate u = false := by
  refine ⟨fun e => ?_, fun hs => utfChars_of_noSurrogate hs h0⟩
  have hlen := utfChars_length h h0
  rw [e] at hlen
  have hnone : s.countP isSurrogate = 0 := by omega
  rw [List.countP_eq_zero] at hnone
  exact fun u hu => by simpa using hnone u hu

/-! ### The strings of a `DoryProcess` -/

/-- The command, the directory, and the keys and values of the environment. -/
def DoryProcess.strings (p : DoryProcess) : List JString :=
  p.command.reduceOption ++ p.directory.toList ++
    p.environment.entries.flatMap fun e => [e.1, e.2]

/-- `uv_spawn` is given the strings as UTF-8: one argument for each string of the command, in
order, and `NULL`; the first of them as the file; the directory; and the entries of the
environment.  Read as UTF-8 the arguments give the command. -/
structure DoryProcess.ReachesAsUtf8 (p : DoryProcess) (o : UvProcessOptions) : Prop where
  args : o.args = p.command.map (Option.map standardUtf8) ++ [none]
  file : o.file = o.args.head?.join
  cwd : o.cwd = p.directory.map standardUtf8
  env : o.env = if p.environment.entries = [] then none
    else some (p.envArray.map (fun s => some (standardUtf8 s)) ++ [none])
  decoded : o.args.dropLast.map (fun a => a.bind fromUtf8) = p.command

namespace DoryProcess

variable {p : DoryProcess}

theorem mem_strings {s : JString} : s ∈ p.strings ↔ some s ∈ p.command ∨ p.directory = some s ∨
    ∃ e ∈ p.environment.entries, s = e.1 ∨ s = e.2 := by
  simp [strings, List.reduceOption_mem_iff]

/-- An entry of `envArray` is as well formed as its key and value. -/
theorem entry_wellFormed {e : JString × JString} (h₁ : Paired e.1) (h₂ : Paired e.2) (h₁' : 0 ∉ e.1)
    (h₂' : 0 ∉ e.2) : Paired (e.1 ++ 0x3D :: e.2) ∧ 0 ∉ e.1 ++ 0x3D :: e.2 :=
  ⟨h₁.append (.unit rfl h₂), by simp [h₁', h₂']⟩

theorem entry_noSurrogate {e : JString × JString} :
    (∀ u ∈ e.1 ++ 0x3D :: e.2, isSurrogate u = false) ↔
      (∀ u ∈ e.1, isSurrogate u = false) ∧ ∀ u ∈ e.2, isSurrogate u = false := by
  have : isSurrogate 0x3D = false := rfl
  simp only [List.mem_append, List.mem_cons, or_imp, forall_and, forall_eq, this, true_and]

/-- Arguments in standard UTF-8 read back as the command. -/
theorem decoded_command (hnull : none ∉ p.command) (hp : ∀ s, some s ∈ p.command → Paired s) :
    (p.command.map (Option.map standardUtf8) ++ [none]).dropLast.map
      (fun a => Option.bind a fromUtf8) = p.command := by
  rw [List.dropLast_concat, List.map_map]
  conv => rhs; rw [← List.map_id p.command]
  refine List.map_congr_left fun a ha => ?_
  cases a with
  | none => exact absurd ha hnull
  | some s => exact fromUtf8_standard (hp s ha)

/-- **When the strings reach the child as UTF-8.**  For well-formed strings without `U+0000`: if and
only if no character of the command, the directory or the environment is beyond `U+FFFF`. -/
theorem utf8_iff (hp : ∀ s ∈ p.strings, Paired s) (h0 : ∀ s ∈ p.strings, 0 ∉ s) {mem : Uninit}
    {loop : LoopPtr} {c : Setup JniCallback} (hc : p.setup mem loop = some c)
    {h : Support.History Input (Act JniCallback)} {s : Child JniCallback}
    (r : (Child.machine JniCallback).Run (Child.start c) h s) {o : UvProcessOptions}
    (ho : .uv (.spawn o) ∈ h.outputs) :
    p.ReachesAsUtf8 o ↔ ∀ s ∈ p.strings, ∀ u ∈ s, isSurrogate u = false := by
  have hopt := (Child.run_spawn r).2 o ho
  obtain ⟨hnull, hargs, hcwd, henv⟩ := setup_eq hc
  have hoargs : o.args = p.command.map (Option.map getStringUTFChars) ++ [none] := by
    rw [hopt]; exact hargs
  have hocwd : o.cwd = p.directory.map getStringUTFChars := by rw [hopt]; exact hcwd
  have hoenv : o.env = if p.environment.entries = [] then none
      else some (p.envArray.map (fun s => some (getStringUTFChars s)) ++ [none]) := by
    rw [hopt]; exact henv
  have standard {s} (hs : s ∈ p.strings) : getStringUTFChars s = standardUtf8 s ↔
      ∀ u ∈ s, isSurrogate u = false := utfChars_standard_iff (hp s hs) (h0 s hs)
  have standard_entry {e} (he : e ∈ p.environment.entries) :
      getStringUTFChars (e.1 ++ 0x3D :: e.2) = standardUtf8 (e.1 ++ 0x3D :: e.2) ↔
        (∀ u ∈ e.1, isSurrogate u = false) ∧ ∀ u ∈ e.2, isSurrogate u = false := by
    have h₁ := mem_strings.mpr (.inr (.inr ⟨e, he, .inl rfl⟩))
    have h₂ := mem_strings.mpr (.inr (.inr ⟨e, he, .inr rfl⟩))
    obtain ⟨hw, hw0⟩ := entry_wellFormed (hp _ h₁) (hp _ h₂) (h0 _ h₁) (h0 _ h₂)
    rw [utfChars_standard_iff hw hw0, entry_noSurrogate]
  constructor
  · intro hr s hs
    rcases mem_strings.mp hs with hcmd | hdir | ⟨e, he, hse⟩
    · have hmap := List.append_cancel_right (hoargs.symm.trans hr.args)
      exact (standard hs).mp (Option.some.inj (List.map_inj_left.mp hmap _ hcmd))
    · have hmap := hocwd.symm.trans hr.cwd
      rw [hdir] at hmap
      exact (standard hs).mp (Option.some.inj hmap)
    · have hmap := hoenv.symm.trans hr.env
      have hne : p.environment.entries ≠ [] := List.ne_nil_of_mem he
      rw [if_neg hne, if_neg hne, Option.some.injEq] at hmap
      have hmap := List.map_inj_left.mp (List.append_cancel_right hmap) _
        (List.mem_map_of_mem he)
      have hboth := (standard_entry he).mp (Option.some.inj hmap)
      rcases hse with rfl | rfl
      · exact hboth.1
      · exact hboth.2
  · intro hs
    have hargs' : o.args = p.command.map (Option.map standardUtf8) ++ [none] := by
      rw [hoargs]
      congr 1
      refine List.map_congr_left fun a ha => ?_
      cases a with
      | none => rfl
      | some s =>
          have hmem := mem_strings.mpr (.inl ha)
          exact congrArg some ((standard hmem).mpr (hs s hmem))
    refine ⟨hargs', by rw [hopt]; rfl, ?_, ?_, ?_⟩
    · rw [hocwd]
      cases hdir : p.directory with
      | none => rfl
      | some s =>
          have hmem := mem_strings.mpr (.inr (.inl hdir))
          exact congrArg some ((standard hmem).mpr (hs s hmem))
    · rw [hoenv]
      have hentries : p.envArray.map (fun s => some (getStringUTFChars s)) =
          p.envArray.map fun s => some (standardUtf8 s) := by
        rw [envArray, List.map_map, List.map_map]
        refine List.map_congr_left fun e he => congrArg some ((standard_entry he).mpr ⟨?_, ?_⟩)
        · exact hs _ (mem_strings.mpr (.inr (.inr ⟨e, he, .inl rfl⟩)))
        · exact hs _ (mem_strings.mpr (.inr (.inr ⟨e, he, .inr rfl⟩)))
      rw [hentries]
    · rw [hargs']
      exact decoded_command hnull fun s hs => hp s (mem_strings.mpr (.inl hs))

theorem utf8_iff_example : ∃ c h s o,
    (new [some [0x6C, 0x73], some [0xE9]] ⟨[([0x4B], [0x56])], by decide⟩).setup
      (Setup.example 0).mem 1 = some c ∧
    (Child.machine JniCallback).Run (Child.start c) h s ∧ .uv (.spawn o) ∈ h.outputs ∧
    (new [some [0x6C, 0x73], some [0xE9]] ⟨[([0x4B], [0x56])], by decide⟩).ReachesAsUtf8 o := by
  refine ⟨_, _, _, _, rfl, Support.Machine.exec_run [.enter, .uvSpawn (.ok 7)] rfl,
    List.mem_singleton_self _, ?_⟩
  have hplain : (new [some [0x6C, 0x73], some [0xE9]] ⟨[([0x4B], [0x56])], by decide⟩).strings.all
      (fun s => s.all fun u => !isSurrogate u) = true := rfl
  simp only [List.all_eq_true, Bool.not_eq_true'] at hplain
  refine (utf8_iff ?_ (by decide) rfl (Support.Machine.exec_run [.enter, .uvSpawn (.ok 7)] rfl)
    (List.mem_singleton_self _)).mpr hplain
  intro s hs
  simp only [strings, new, List.reduceOption, List.filterMap, List.flatMap_cons, List.flatMap_nil,
    id, Option.toList_none, List.cons_append, List.nil_append, List.append_nil, List.mem_cons,
    List.not_mem_nil, or_false] at hs
  rcases hs with rfl | rfl | rfl | rfl
  · exact .unit rfl (.unit rfl .nil)
  · exact .unit rfl .nil
  · exact .unit rfl .nil
  · exact .unit rfl .nil

/-- **A character beyond `U+FFFF`.**  The command `😀` is a well-formed string, and its six bytes are
not its UTF-8. -/
theorem supplementary_command : ∃ c h s o,
    (new [some [0xD83D, 0xDE00]] ⟨[], .nil⟩).setup (Setup.example 0).mem 1 = some c ∧
    (Child.machine JniCallback).Run (Child.start c) h s ∧ .uv (.spawn o) ∈ h.outputs ∧
    Paired [0xD83D, 0xDE00] ∧ ¬ (new [some [0xD83D, 0xDE00]] ⟨[], .nil⟩).ReachesAsUtf8 o := by
  refine ⟨_, _, _, _, rfl, Support.Machine.exec_run [.enter, .uvSpawn (.ok 7)] rfl,
    List.mem_singleton_self _, .pair rfl rfl .nil, fun hr => ?_⟩
  exact absurd hr.args (by decide)

end DoryProcess

end Dorypuppy

/-
  X8664/Modules.lean --- what `parse_modules` selects.

  Each module string is cut in place behind its first word, compared with the name of
  the kernel, and mended.  A turn of the loop leaves memory as it found it, so that a
  run is a fold over the modules, whether or not their strings share storage.  A string
  without a word yields a null token, which is compared like any other.  The last part
  prepares a boot that passes no command line.
-/
import HosBoot.X8664.Init

set_option autoImplicit false

namespace HosBoot.X8664

open HosBoot.Foundation HosBoot.Common

/-! ## The first word of a string -/

/-- The first space-delimited word. -/
def firstWord (text : List UInt8) : Option (List UInt8) := (runs (· == space) text).head?

/-- A string that is cut behind its first word, and how it is mended. -/
structure WordCut (m m' : Mem) (p : Nat) (text word : List UInt8) (tok saveptr : Nat) : Prop where
  first : firstWord text = some word
  tok_ne : tok ≠ 0
  token : CString m' tok word
  short : word.length ≤ text.length
  /-- Only a space of the string has changed, -/
  frame : ∀ a, m' a ≠ m a → InRange p text.length a ∧ m a = space
  /-- and it comes back in front of the saved pointer. -/
  mended : (if saveptr ≠ 0 then m'.write (saveptr - 1) space else m') = m

section Cut

variable {m : Mem} {p : Nat} {text : List UInt8}

theorem write_mended {a : Nat} {sep : UInt8} (h : m a = sep) : (m.write a 0).write a sep = m := by
  funext b
  by_cases hb : b = a
  · rw [hb, Mem.write_same, h]
  · rw [Mem.write_of_ne hb, Mem.write_of_ne hb]

/-- `strtok_r` on a string of spaces finds nothing. -/
theorem strtokR_spaces (hne : p ≠ 0) (h : CString m p text) (hspaces : ∀ c ∈ text, c = space)
    (hlen : text.length < addressSpace) :
    firstWord text = none ∧ strtokR m p [space] 0 = some (0, 0, m) := by
  have hdelim : ∀ c ∈ text, isDelim [space] c = true := by
    intro c hc
    rw [isDelim_singleton, hspaces c hc]
    decide
  refine ⟨?_, strtokR_none (if_pos hne) hne h hdelim hlen⟩
  rw [firstWord, ← isDelim_singleton, runs_separators hdelim]
  rfl

/-- `strtok_r` on any other string cuts it behind the first word. -/
theorem strtokR_word (hne : p ≠ 0) (h : CString m p text) (hword : ∃ c ∈ text, c ≠ space)
    (hlen : text.length < addressSpace) :
    ∃ tok saveptr m' word, strtokR m p [space] 0 = some (tok, saveptr, m') ∧
      WordCut m m' p text word tok saveptr := by
  rcases scan_cases (isDelim [space]) text with hall | ⟨pre, run, rfl, hpre, hrun⟩ |
    ⟨pre, run, sep, rest, rfl, hpre, hrun, hsep⟩
  · obtain ⟨c, hc, hother⟩ := hword
    have hspace := hall c hc
    rw [isDelim_singleton, beq_iff_eq] at hspace
    exact absurd hspace hother
  · -- The word ends the string: nothing is cut.
    refine ⟨_, _, _, run, strtokR_last (if_pos hne) hne h hpre hrun hlen, ?_⟩
    exact
      { first := by
          rw [firstWord, ← isDelim_singleton, runs_skip hpre, runs_last hrun]
          rfl
        tok_ne := by omega
        token := h.drop
        short := by rw [List.length_append]; omega
        frame := fun a ha => absurd rfl ha
        mended := if_neg (not_not.mpr rfl) }
  · refine ⟨_, _, _, run, strtokR_cons (if_pos hne) hne h hpre hrun hsep hlen, ?_⟩
    rw [isDelim_singleton, beq_iff_eq] at hsep
    obtain ⟨hbyte, _, _⟩ := h.drop.drop
    rw [hsep] at hbyte
    exact
      { first := by
          rw [firstWord, ← isDelim_singleton, runs_skip hpre, runs_cons hrun (by
            rw [isDelim_singleton, beq_iff_eq]
            exact hsep)]
          rfl
        tok_ne := by omega
        token := h.drop.cut
        short := by simp only [List.length_append]; omega
        frame := by
          intro a ha
          have haddr : a = p + pre.length + run.length := by
            by_contra hother
            exact ha (Mem.write_of_ne hother)
          rw [haddr]
          refine ⟨⟨by omega, ?_⟩, hbyte⟩
          simp only [List.length_append, List.length_cons]
          omega
        mended := by
          rw [if_pos (Nat.succ_ne_zero _), Nat.add_sub_cancel]
          exact write_mended hbyte }

end Cut

/-! ## The modules -/

/-- A module and its command string. -/
structure CommandModule extends MultibootModule where
  text : List UInt8
  deriving DecidableEq, Repr

/-- `multiboot->mods + i` -/
def moduleAddr (info : MultibootInfo) (i : Nat) : UInt32 :=
  info.mods + sizeofMultibootModule * UInt32.ofNat i

/-- A module descriptor in memory, with a string that is not part of it. -/
structure ModuleAt (m : Mem) (addr : UInt32) (mod : CommandModule) : Prop where
  descriptor : readModule m addr = mod.toMultibootModule
  named : mod.modName.toNat ≠ 0
  string : CString m mod.modName.toNat mod.text
  inMemory : mod.modName.toNat + mod.text.length < 2 ^ 32
  apart : ∀ a, InRange mod.modName.toNat mod.text.length a →
    ¬ InRange addr.toNat sizeofMultibootModule.toNat a

/-- The array of modules that the boot loader leaves.  Strings may overlap. -/
structure ModuleArray (m : Mem) (multiboot : UInt32) (mods : List CommandModule) : Prop where
  count : (readMultiboot m multiboot).modsCount.toNat = mods.length
  module : ∀ i mod, mods[i]? = some mod →
    ModuleAt m (moduleAddr (readMultiboot m multiboot) i) mod

/-- The name of the kernel, `global_options.kernel_name`. -/
structure KernelName (s : BootState) (name : List UInt8) : Prop where
  string : CString s.mem s.options.kernelName name
  inMemory : s.options.kernelName + name.length < 2 ^ 32

/-- No string of a module holds a space that is part of the kernel's name. -/
def NameKept (s : BootState) (mods : List CommandModule) (name : List UInt8) : Prop :=
  ∀ mod ∈ mods, ∀ a, InRange mod.modName.toNat mod.text.length a → s.mem a = space →
    ¬ InRange s.options.kernelName (name.length + 1) a

/-- What a turn makes of a module. -/
def selectModule (name : List UInt8) (o : BootOptions) (mod : CommandModule) : BootOptions :=
  takeModule o mod.toMultibootModule (decide (firstWord mod.text = some name))

theorem readModule_congr {m m' : Mem} {addr : UInt32}
    (h : ∀ a, InRange addr.toNat sizeofMultibootModule.toNat a → m' a = m a) :
    readModule m' addr = readModule m addr := by
  have hsize : sizeofMultibootModule.toNat = 16 := rfl
  have hword : ∀ k, k + 4 ≤ 16 → m'.read32 (addr.toNat + k) = m.read32 (addr.toNat + k) := by
    intro k hk
    refine congrArg UInt32.ofNat (Mem.loadLE_congr fun a ha => h a ?_)
    exact ha.widen (by omega) (by omega)
  have hstart := hword 0 (by omega)
  have hend := hword 4 (by omega)
  have hname := hword 8 (by omega)
  unfold readModule
  rw [hend, hname]
  exact congrArg (fun w => MultibootModule.mk w _ _) hstart

section Turn

variable {s : BootState} {addr : UInt32} {mod : CommandModule} {name : List UInt8}

theorem ModuleAt.name_eq {m : Mem} (h : ModuleAt m addr mod) :
    (readModule m addr).modName.toNat = mod.modName.toNat := by
  rw [h.descriptor]

theorem ModuleAt.length_lt {m : Mem} (h : ModuleAt m addr mod) :
    mod.text.length < addressSpace := by
  have hfits := h.inMemory
  unfold addressSpace
  omega

/-- A turn for a module with a word: memory stays as it is. -/
theorem ModuleAt.parseModule_eq (h : ModuleAt s.mem addr mod)
    (hword : ∃ c ∈ mod.text, c ≠ space) (hname : CString s.mem s.options.kernelName name)
    (hkept : ∀ a, InRange mod.modName.toNat mod.text.length a → s.mem a = space →
      ¬ InRange s.options.kernelName (name.length + 1) a) :
    parseModule s addr = .ok { s with options := selectModule name s.options mod } := by
  have hlen := h.length_lt
  obtain ⟨tok, saveptr, m', word, htok, hcut⟩ := strtokR_word h.named h.string hword hlen
  have hsame : ∀ a, ¬ (InRange mod.modName.toNat mod.text.length a ∧ s.mem a = space) →
      m' a = s.mem a := fun a ha => by_contra fun hne => ha (hcut.frame a hne)
  have hread : readModule m' addr = mod.toMultibootModule := by
    rw [readModule_congr fun a ha => hsame a fun hin => h.apart a hin.1 ha, h.descriptor]
  have hname' : CString m' s.options.kernelName name :=
    hname.congr fun a ha => hsame a fun hin => hkept a hin.1 hin.2 ha
  have hshort := hcut.short
  obtain ⟨d, hcmp, hiff⟩ : ∃ d, strcmp m' tok m' s.options.kernelName = some d ∧
      (d = 0 ↔ word = name) := strcmpLoop_eq hcut.token hname' (by omega)
  have hdecide : (d == 0) = decide (firstWord mod.text = some name) := by
    rw [Bool.eq_iff_iff, beq_iff_eq, decide_eq_true_eq, hcut.first, Option.some_inj]
    exact hiff
  unfold parseModule
  rw [h.name_eq, htok]
  simp only [hcmp, hread, hdecide, hcut.mended]
  rfl

end Turn

/-! ## The run -/

/-- The tokens that the loop of `parse_modules` passes to `strcmp`, from index `i` on. -/
def comparedTokens (multiboot : UInt32) : Nat → Nat → BootState → List Nat
  | 0, _, _ => []
  | fuel + 1, i, s =>
      let info := readMultiboot s.mem multiboot
      if i < info.modsCount.toNat then
        let mod := info.mods + sizeofMultibootModule * UInt32.ofNat i
        match strtokR s.mem (readModule s.mem mod).modName.toNat [space] 0 with
        | none => []
        | some (modName, _, _) =>
            modName ::
              match parseModule s mod with
              | .ok s => comparedTokens multiboot fuel (i + 1) s
              | .error _ => []
      else
        []

/-- The tokens that a call of `parse_modules` compares. -/
def parseModulesTokens (s : BootState) (multiboot : UInt32) : List Nat :=
  match (s.print (bytesOf "Going to load ")).puts s.options.kernelName with
  | .ok s => comparedTokens multiboot (2 ^ 32) 0 (s.print (bytesOf " as kernel...\n"))
  | .error _ => []

@[simp] theorem selectModule_kernelName (name : List UInt8) (o : BootOptions)
    (mod : CommandModule) : (selectModule name o mod).kernelName = o.kernelName := by
  rw [selectModule, takeModule_eq]

section Run

variable {multiboot : UInt32} {name : List UInt8}

/-- One turn of the loop, and the token that it compares. -/
theorem comparedTokens_succ {s : BootState} {fuel i tok saveptr : Nat} {m' : Mem}
    (hmore : i < (readMultiboot s.mem multiboot).modsCount.toNat)
    (htok : strtokR s.mem (readModule s.mem
      (moduleAddr (readMultiboot s.mem multiboot) i)).modName.toNat [space] 0 =
        some (tok, saveptr, m')) :
    comparedTokens multiboot (fuel + 1) i s =
      tok ::
        match parseModule s (moduleAddr (readMultiboot s.mem multiboot) i) with
        | .ok s => comparedTokens multiboot fuel (i + 1) s
        | .error _ => [] := by
  unfold moduleAddr at htok
  rw [comparedTokens]
  simp only [if_pos hmore, htok]
  rfl

/-- The loop between two turns: the array, and a name that the modules ahead leave whole. -/
structure ModulesLeft (s : BootState) (multiboot : UInt32) (name : List UInt8)
    (pre rest : List CommandModule) : Prop where
  array : ModuleArray s.mem multiboot (pre ++ rest)
  string : CString s.mem s.options.kernelName name
  kept : NameKept s rest name

namespace ModulesLeft

variable {s : BootState} {mod : CommandModule} {pre rest : List CommandModule}

/-- No module is ahead. -/
theorem done (h : ModulesLeft s multiboot name pre []) :
    ¬ pre.length < (readMultiboot s.mem multiboot).modsCount.toNat := by
  have hcount := h.array.count
  rw [List.append_nil] at hcount
  rw [hcount]
  exact Nat.lt_irrefl _

theorem head (h : ModulesLeft s multiboot name pre (mod :: rest)) :
    pre.length < (readMultiboot s.mem multiboot).modsCount.toNat ∧
      ModuleAt s.mem (moduleAddr (readMultiboot s.mem multiboot) pre.length) mod := by
  have hcount := h.array.count
  rw [List.length_append, List.length_cons] at hcount
  refine ⟨by omega, h.array.module _ _ ?_⟩
  rw [List.getElem?_append_right (Nat.le_refl _), Nat.sub_self]
  rfl

theorem turn (h : ModulesLeft s multiboot name pre (mod :: rest))
    (hword : ∃ c ∈ mod.text, c ≠ space) :
    parseModule s (moduleAddr (readMultiboot s.mem multiboot) pre.length) =
      .ok { s with options := selectModule name s.options mod } :=
  h.head.2.parseModule_eq hword h.string (List.forall_mem_cons.mp h.kept).1

theorem next (h : ModulesLeft s multiboot name pre (mod :: rest)) :
    ModulesLeft { s with options := selectModule name s.options mod } multiboot name
      (pre ++ [mod]) rest := by
  have hsplit : pre ++ mod :: rest = (pre ++ [mod]) ++ rest := by
    rw [List.append_assoc, List.singleton_append]
  have hkernel := selectModule_kernelName name s.options mod
  refine ⟨hsplit ▸ h.array, ?_, ?_⟩
  · rw [hkernel]
    exact h.string
  · unfold NameKept
    rw [hkernel]
    exact (List.forall_mem_cons.mp h.kept).2

end ModulesLeft

/-- The loop is a fold over the modules that are left. -/
theorem parseModulesLoop_eq : ∀ {rest pre : List CommandModule} {s : BootState} {fuel : Nat},
    ModulesLeft s multiboot name pre rest → (∀ mod ∈ rest, ∃ c ∈ mod.text, c ≠ space) →
    rest.length < fuel →
    parseModulesLoop multiboot fuel pre.length s =
      .ok { s with options := rest.foldl (selectModule name) s.options } := by
  intro rest
  induction rest with
  | nil =>
    intro pre s fuel h _ hfuel
    obtain ⟨fuel, rfl⟩ : ∃ f, fuel = f + 1 := ⟨fuel - 1, by omega⟩
    rw [parseModulesLoop]
    exact if_neg h.done
  | cons mod rest ih =>
    intro pre s fuel h hwords hfuel
    obtain ⟨fuel, rfl⟩ : ∃ f, fuel = f + 1 := ⟨fuel - 1, by omega⟩
    obtain ⟨hword, hrest⟩ := List.forall_mem_cons.mp hwords
    have hloop := ih h.next hrest (Nat.lt_of_succ_lt_succ hfuel)
    rw [List.length_append, List.length_singleton] at hloop
    rw [parseModulesLoop, if_pos h.head.1]
    exact bind_eq_ok.mpr ⟨_, h.turn hword, hloop⟩

/-- A null token is compared exactly if a module has no word. -/
theorem zero_notMem_comparedTokens :
    ∀ {rest pre : List CommandModule} {s : BootState} {fuel : Nat},
      ModulesLeft s multiboot name pre rest → rest.length < fuel →
      (0 ∉ comparedTokens multiboot fuel pre.length s ↔
        ∀ mod ∈ rest, ∃ c ∈ mod.text, c ≠ space) := by
  intro rest
  induction rest with
  | nil =>
    intro pre s fuel h hfuel
    obtain ⟨fuel, rfl⟩ : ∃ f, fuel = f + 1 := ⟨fuel - 1, by omega⟩
    have hnone : comparedTokens multiboot (fuel + 1) pre.length s = [] := if_neg h.done
    rw [hnone]
    exact ⟨fun _ mod hmem => by (cases hmem), fun _ hmem => by (cases hmem)⟩
  | cons mod rest ih =>
    intro pre s fuel h hfuel
    obtain ⟨fuel, rfl⟩ : ∃ f, fuel = f + 1 := ⟨fuel - 1, by omega⟩
    obtain ⟨hmore, hmod⟩ := h.head
    rw [List.forall_mem_cons]
    by_cases hword : ∃ c ∈ mod.text, c ≠ space
    · obtain ⟨tok, saveptr, m', word, htok, hcut⟩ :=
        strtokR_word hmod.named hmod.string hword hmod.length_lt
      have hloop := ih h.next (Nat.lt_of_succ_lt_succ hfuel)
      rw [List.length_append, List.length_singleton] at hloop
      rw [← hmod.name_eq] at htok
      rw [comparedTokens_succ hmore htok, h.turn hword, List.mem_cons, not_or]
      exact and_congr ⟨fun _ => hword, fun _ hzero => hcut.tok_ne hzero.symm⟩ hloop
    · have hspaces : ∀ c ∈ mod.text, c = space :=
        fun c hc => by_contra fun hne => hword ⟨c, hc, hne⟩
      have htok := (strtokR_spaces hmod.named hmod.string hspaces hmod.length_lt).2
      rw [← hmod.name_eq] at htok
      rw [comparedTokens_succ hmore htok]
      exact ⟨fun hnone => absurd List.mem_cons_self hnone, fun h => absurd h.1 hword⟩

/-- The messages in front of the loop. -/
theorem parseModules_puts {s : BootState} (h : KernelName s name) :
    (s.print (bytesOf "Going to load ")).puts s.options.kernelName =
      .ok ((s.print (bytesOf "Going to load ")).print name) := by
  have hfits := h.inMemory
  have hread : stringAt (s.print (bytesOf "Going to load ")).mem addressSpace
      s.options.kernelName = some name := h.string.stringAt_eq (by
    unfold addressSpace
    omega)
  unfold BootState.puts
  rw [hread]

/-- A run over modules with words: memory stays as it is. -/
theorem parseModules_eq {s : BootState} {mods : List CommandModule}
    (h : ModuleArray s.mem multiboot mods) (hname : KernelName s name)
    (hkept : NameKept s mods name) (hwords : ∀ mod ∈ mods, ∃ c ∈ mod.text, c ≠ space) :
    ∃ text, parseModules s multiboot = .ok { s with
      console := text
      options := mods.foldl (selectModule name) s.options } := by
  have hcount := (readMultiboot s.mem multiboot).modsCount.toNat_lt
  rw [h.count] at hcount
  let s₁ := ((s.print (bytesOf "Going to load ")).print name).print (bytesOf " as kernel...\n")
  have hleft : ModulesLeft s₁ multiboot name [] mods := ⟨h, hname.string, hkept⟩
  have hloop : parseModulesLoop multiboot (2 ^ 32) 0 s₁ = _ :=
    parseModulesLoop_eq hleft hwords hcount
  exact ⟨s₁.console, bind_eq_ok.mpr ⟨_, parseModules_puts hname, hloop⟩⟩

end Run

/-! ## What is selected -/

/-- The last module whose first word is the name. -/
def namedModule (name : List UInt8) (mods : List CommandModule) : Option CommandModule :=
  mods.reverse.find? fun mod => firstWord mod.text = some name

section Selection

variable {name : List UInt8}

theorem namedModule_cons (mod : CommandModule) (mods : List CommandModule) :
    namedModule name (mod :: mods) =
      (namedModule name mods).or (if firstWord mod.text = some name then some mod else none) := by
  rw [namedModule, List.reverse_cons, List.find?_append, List.find?_singleton]
  simp only [decide_eq_true_eq]
  rfl

/-- The kernel is the last module with its name. -/
theorem foldl_selectModule_kernel (name : List UInt8) :
    ∀ (mods : List CommandModule) (o : BootOptions),
    (∀ mod, namedModule name mods = some mod →
        (mods.foldl (selectModule name) o).kernelStart = mod.modStart ∧
          (mods.foldl (selectModule name) o).kernelEnd = align4kUp32 mod.modEnd) ∧
      (namedModule name mods = none →
        (mods.foldl (selectModule name) o).kernelStart = o.kernelStart ∧
          (mods.foldl (selectModule name) o).kernelEnd = o.kernelEnd) := by
  intro mods
  induction mods with
  | nil => exact fun o => ⟨fun mod h => (by cases h), fun _ => ⟨rfl, rfl⟩⟩
  | cons mod mods ih =>
    intro o
    obtain ⟨hsome, hnone⟩ := ih (selectModule name o mod)
    rw [List.foldl_cons, namedModule_cons]
    cases hrest : namedModule name mods with
    | some last =>
      rw [Option.some_or]
      exact ⟨fun mod h => Option.some.inj h ▸ hsome last hrest, fun h => by cases h⟩
    | none =>
      obtain ⟨hstart, hend⟩ := hnone hrest
      rw [Option.none_or, hstart, hend, selectModule, takeModule_eq]
      by_cases hfirst : firstWord mod.text = some name
      · rw [if_pos hfirst, decide_eq_true hfirst]
        exact ⟨fun mod h => Option.some.inj h ▸ ⟨rfl, rfl⟩, fun h => by cases h⟩
      · rw [if_neg hfirst, decide_eq_false hfirst]
        exact ⟨fun mod h => (by cases h), fun _ => ⟨rfl, rfl⟩⟩

/-- The highest address is the maximum of all ends. -/
theorem foldl_selectModule_highest (name : List UInt8) :
    ∀ (mods : List CommandModule) (o : BootOptions),
    (mods.foldl (selectModule name) o).highestModuleAddress.toNat =
      (mods.map fun mod => (align4kUp32 mod.modEnd).toNat).foldl max
        o.highestModuleAddress.toNat := by
  intro mods
  induction mods with
  | nil => exact fun o => rfl
  | cons mod mods ih =>
    intro o
    rw [List.foldl_cons, ih, selectModule, takeModule_highest, List.map_cons, List.foldl_cons]

end Selection

/-! ## Two machines -/

/-- Modules whose strings lie behind the array. -/
theorem ModuleArray.of_behind {m : Mem} {multiboot : UInt32} {mods : List CommandModule}
    (info : MultibootInfo) (hinfo : readMultiboot m multiboot = info)
    (hcount : info.modsCount.toNat = mods.length)
    (h : ∀ i (hi : i < mods.length),
      readModule m (moduleAddr info i) = mods[i].toMultibootModule ∧
        CString m mods[i].modName.toNat mods[i].text ∧
        (moduleAddr info i).toNat + sizeofMultibootModule.toNat ≤ mods[i].modName.toNat ∧
        mods[i].modName.toNat + mods[i].text.length < 2 ^ 32) :
    ModuleArray m multiboot mods := by
  subst hinfo
  refine ⟨hcount, fun i mod hmod => ?_⟩
  obtain ⟨hi, rfl⟩ := List.getElem?_eq_some_iff.mp hmod
  obtain ⟨hread, hstring, hbehind, hfits⟩ := h i hi
  have hsize : sizeofMultibootModule.toNat = 16 := rfl
  refine ⟨hread, by omega, hstring, hfits, fun a ha hin => ?_⟩
  unfold InRange at ha hin
  omega

/-- The kernel with an argument, and a module whose string is that argument. -/
def sharedModules : List CommandModule :=
  [⟨⟨0x200000, 0x201800, 0x301000⟩, bytesOf " Interlude  a"⟩,
    ⟨⟨0x210000, 0x210123, 0x30100C⟩, bytesOf "a"⟩]

/-- A module with an empty string. -/
def namelessModules : List CommandModule := [⟨⟨0x200000, 0x201800, 0x301000⟩, []⟩]

/-- What `multiboot` points to on the machine. -/
def moduleInfo (mods : List CommandModule) : MultibootInfo :=
  ⟨0x48, 0, UInt32.ofNat mods.length, 0x300000, 0, 0⟩

/-- A machine with some modules, and with `text` at `0x301000`.  The kernel's name also lies
at address zero. -/
def moduleMachine (mods : List CommandModule) (text : String) : BootState where
  mem := Mem.ofParts
    [(0x103000, bytesOf "Interlude"), (0, bytesOf "Interlude"),
      (0x203800, (moduleInfo mods).bytes),
      (0x300000, mods.flatMap fun mod => mod.bytes), (0x301000, bytesOf text)]
  options := { kernelName := 0x103000 }

theorem sharedModules_array :
    ModuleArray (moduleMachine sharedModules " Interlude  a").mem 0x203800 sharedModules :=
  ModuleArray.of_behind (moduleInfo sharedModules) (by decide +kernel) (by decide +kernel)
    (by decide +kernel)

theorem sharedModules_kernelName :
    KernelName (moduleMachine sharedModules " Interlude  a") (bytesOf "Interlude") :=
  ⟨by decide +kernel, by decide +kernel⟩

theorem sharedModules_words : ∀ mod ∈ sharedModules, ∃ c ∈ mod.text, c ≠ space := by
  decide +kernel

/-! ## Runs of `parse_modules` -/

/-- No null token is compared; the kernel is the last module with its name, and without
one nothing is selected and the kernel is reported missing. -/
structure SelectsKernel (s : BootState) (multiboot : UInt32) (name : List UInt8)
    (mods : List CommandModule) : Prop where
  noNull : 0 ∉ parseModulesTokens s multiboot
  selects : ∃ s', parseModules s multiboot = .ok s' ∧
    (∀ mod, namedModule name mods = some mod →
      s'.options.kernelStart = mod.modStart ∧
        s'.options.kernelEnd = align4kUp32 mod.modEnd) ∧
    (namedModule name mods = none →
      s'.options.kernelStart = s.options.kernelStart ∧
        s'.options.kernelEnd = s.options.kernelEnd ∧
        (s.options.kernelStart = 0 ∨ s.options.kernelEnd = 0 →
          loadKernel s' multiboot = s'.error "Kernel image not found"))

section Runs

variable {s : BootState} {multiboot : UInt32} {name : List UInt8} {mods : List CommandModule}

/-- A name without spaces is not cut. -/
theorem nameKept_of_notMem (hname : CString s.mem s.options.kernelName name)
    (hspace : space ∉ name) (mods : List CommandModule) : NameKept s mods name := by
  intro mod _ a _ ha hin
  rcases hname.byte_mem hin with hmem | hzero
  · exact hspace (ha ▸ hmem)
  · exact absurd (ha.symm.trans hzero) (by decide)

/-- The selection is right exactly if each module string has a word. -/
theorem parseModules_selects_iff (h : ModuleArray s.mem multiboot mods)
    (hname : KernelName s name) (hspace : space ∉ name) :
    SelectsKernel s multiboot name mods ↔ ∀ mod ∈ mods, ∃ c ∈ mod.text, c ≠ space := by
  have hkept := nameKept_of_notMem hname.string hspace mods
  have hcount := (readMultiboot s.mem multiboot).modsCount.toNat_lt
  rw [h.count] at hcount
  let s₁ := ((s.print (bytesOf "Going to load ")).print name).print (bytesOf " as kernel...\n")
  have htokens : parseModulesTokens s multiboot = comparedTokens multiboot (2 ^ 32) 0 s₁ := by
    unfold parseModulesTokens
    rw [parseModules_puts hname]
  have hleft : ModulesLeft s₁ multiboot name [] mods := ⟨h, hname.string, hkept⟩
  have hnull := zero_notMem_comparedTokens hleft hcount
  rw [List.length_nil, ← htokens] at hnull
  constructor
  · exact fun hselects => hnull.mp hselects.noNull
  · intro hwords
    obtain ⟨text, hrun⟩ := parseModules_eq h hname hkept hwords
    obtain ⟨hsome, hnone⟩ := foldl_selectModule_kernel name mods s.options
    refine ⟨hnull.mpr hwords, _, hrun, hsome, fun hno => ?_⟩
    obtain ⟨hstart, hend⟩ := hnone hno
    refine ⟨hstart, hend, fun hmissing => ?_⟩
    rw [← hstart, ← hend] at hmissing
    exact if_pos hmissing

/-- Both modules have a word, and the first is the kernel. -/
theorem sharedModules_selected :
    SelectsKernel (moduleMachine sharedModules " Interlude  a") 0x203800 (bytesOf "Interlude")
      sharedModules :=
  (parseModules_selects_iff sharedModules_array sharedModules_kernelName
    (by decide +kernel)).mpr sharedModules_words

/-- An empty string: the null token is compared, and with the name at address zero the
module is taken for the kernel. -/
theorem namelessModules_misread :
    (ModuleArray (moduleMachine namelessModules "").mem 0x203800 namelessModules ∧
        KernelName (moduleMachine namelessModules "") (bytesOf "Interlude") ∧
        bytesOf "Interlude" ≠ [] ∧ space ∉ bytesOf "Interlude") ∧
      parseModulesTokens (moduleMachine namelessModules "") 0x203800 = [0] ∧
      (parseModules (moduleMachine namelessModules "") 0x203800).toOption.map
        (fun s => s.options.kernelStart) = some 0x200000 ∧
      ¬ SelectsKernel (moduleMachine namelessModules "") 0x203800 (bytesOf "Interlude")
        namelessModules := by
  have htokens : parseModulesTokens (moduleMachine namelessModules "") 0x203800 = [0] := by
    decide +kernel
  refine ⟨⟨?_, ⟨by decide +kernel, by decide +kernel⟩, by decide +kernel, by decide +kernel⟩,
    htokens, by decide +kernel, fun hselects => ?_⟩
  · exact ModuleArray.of_behind (moduleInfo namelessModules) (by decide +kernel)
      (by decide +kernel) (by decide +kernel)
  · have hnull := hselects.noNull
    rw [htokens] at hnull
    exact hnull List.mem_cons_self

/-- Memory is restored, and the highest address is the maximum of the old one and of all
ends of modules, rounded up to a page. -/
theorem parseModules_restores (h : ModuleArray s.mem multiboot mods)
    (hname : KernelName s name) (hwords : ∀ mod ∈ mods, ∃ c ∈ mod.text, c ≠ space)
    (hapart : ∀ mod ∈ mods, ∀ a, InRange mod.modName.toNat mod.text.length a →
      ¬ InRange s.options.kernelName (name.length + 1) a)
    (hends : ∀ mod ∈ mods, mod.modEnd.toNat ≤ 0xFFFFF000) :
    ∃ s', parseModules s multiboot = .ok s' ∧ s'.mem = s.mem ∧
      (s.options.highestModuleAddress.toNat ::
          mods.map fun mod => roundUp 4096 mod.modEnd.toNat).max? =
        some s'.options.highestModuleAddress.toNat ∧
      ∀ mod ∈ mods, mod.modEnd.toNat ≤ s'.options.highestModuleAddress.toNat := by
  have hkept : NameKept s mods name := fun mod hmem a hin _ => hapart mod hmem a hin
  obtain ⟨text, hrun⟩ := parseModules_eq h hname hkept hwords
  have hhighest := foldl_selectModule_highest name mods s.options
  have hround : (mods.map fun mod => (align4kUp32 mod.modEnd).toNat) =
      mods.map fun mod => roundUp 4096 mod.modEnd.toNat := by
    refine List.map_congr_left fun mod hmem => ?_
    have hend := hends mod hmem
    rw [align4kUp32_modEq]
    unfold roundUp
    omega
  have hmax : (s.options.highestModuleAddress.toNat ::
      mods.map fun mod => roundUp 4096 mod.modEnd.toNat).max? =
        some (mods.foldl (selectModule name) s.options).highestModuleAddress.toNat := by
    rw [List.max?_cons', hhighest, hround]
  refine ⟨_, hrun, rfl, hmax, fun mod hmem => ?_⟩
  have hle := (List.max?_eq_some_iff.mp hmax).2 _
    (List.mem_cons_of_mem _ (List.mem_map_of_mem (f := fun mod : CommandModule =>
      roundUp 4096 mod.modEnd.toNat) hmem))
  exact (le_roundUp (by decide) _).trans hle

/-- The strings of the two modules share storage. -/
theorem sharedModules_restored :
    ∃ s', parseModules (moduleMachine sharedModules " Interlude  a") 0x203800 = .ok s' ∧
      s'.mem = (moduleMachine sharedModules " Interlude  a").mem ∧
      ((moduleMachine sharedModules " Interlude  a").options.highestModuleAddress.toNat ::
          sharedModules.map fun mod => roundUp 4096 mod.modEnd.toNat).max? =
        some s'.options.highestModuleAddress.toNat ∧
      ∀ mod ∈ sharedModules, mod.modEnd.toNat ≤ s'.options.highestModuleAddress.toNat := by
  have hbehind : ∀ mod ∈ sharedModules,
      0x103000 + ((bytesOf "Interlude").length + 1) ≤ mod.modName.toNat := by
    decide +kernel
  refine parseModules_restores sharedModules_array sharedModules_kernelName sharedModules_words
    (fun mod hmem a ha hin => ?_) (by decide +kernel)
  exact absurd (ha.1.trans_lt hin.2) (not_lt.mpr (hbehind mod hmem))

end Runs

/-! ## A boot without options -/

/-- The preparation of a boot that passes no command line. -/
theorem prepareBoot_eq {s : BootState} {multiboot : UInt32} {name : List UInt8}
    {mods : List CommandModule} {info : MultibootInfo}
    (hinfo : readMultiboot s.mem multiboot = info)
    (hflags : info.flags &&& multibootModulesFlag ≠ 0 ∧ info.modsCount ≠ 0 ∧
      info.flags &&& multibootMemMapFlag ≠ 0 ∧ info.flags &&& multibootCmdlineFlag = 0)
    (hmods : ModuleArray s.mem multiboot mods) (hname : KernelName s name)
    (hkept : NameKept s mods name) (hwords : ∀ mod ∈ mods, ∃ c ∈ mod.text, c ≠ space) :
    ∃ text, prepareBoot s multiboot = .ok { s with
      console := text
      options := mods.foldl (selectModule name) s.options } := by
  obtain ⟨hmodules, hcount, hmap, hcmdline⟩ := hflags
  let s₁ := s.print (bytesOf "Haskell OS - x86_64 bootstrap code running\n")
  have hread : readMultiboot s₁.mem multiboot = info := hinfo
  have hcheck : checkMultiboot s₁ multiboot = .ok s₁ := by
    refine checkMultiboot_eq_ok.mpr ⟨?_, rfl⟩
    rw [hread]
    exact ⟨hmodules, hcount, hmap⟩
  have hoptions : parseCmdlineIfGiven s₁ multiboot = .ok s₁ := by
    unfold parseCmdlineIfGiven
    rw [hread, if_neg (not_not.mpr hcmdline)]
  have hname₁ : KernelName s₁ name := ⟨hname.string, hname.inMemory⟩
  obtain ⟨text, hloop⟩ := parseModules_eq (s := s₁) hmods hname₁ hkept hwords
  exact ⟨text, bind_eq_ok.mpr ⟨s₁, hcheck, bind_eq_ok.mpr ⟨s₁, hoptions, hloop⟩⟩⟩

/-! ## A small machine

Sixteen megabytes above the first, the bootstrapper at one megabyte, the kernel
module at two, and the structures of the boot loader above it. -/

/-- `multiboot` -/
def bootMultiboot : UInt32 := 0x203800

/-- Modules and a memory map, no command line. -/
def bootInfo : MultibootInfo := ⟨0x48, 0, 1, 0x300000, 24, 0x302000⟩

/-- The kernel, a page and a half. -/
def bootModule : MultibootModule := ⟨0x200000, 0x201800, 0x301000⟩

def bootMap : List MmapEntry := [⟨20, 0x100000, 0x1000000, 1⟩]

/-- A kernel with one section. -/
structure SmallImage where
  entry : UInt64
  text : Elf64Shdr
  deriving DecidableEq, Repr

/-- The machine when `initMultiboot64` is entered. -/
def bootMachine (image : SmallImage) : BootState where
  mem := Mem.ofParts
    [(0x103000, bytesOf "Interlude"), (0x203800, bootInfo.bytes), (0x300000, bootModule.bytes),
      (0x301000, bytesOf "Interlude"), (0x302000, bootMap.flatMap MmapEntry.bytes),
      (0x200000, elfImage image.entry [image.text])]
  options := { kernelName := 0x103000 }

/-- The options when `load_kernel` is entered. -/
def bootOptions : BootOptions where
  kernelName := 0x103000
  kernelStart := 0x200000
  kernelEnd := 0x202000
  highestModuleAddress := 0x202000

/-- An image as the kernel's own build links it, entered one byte into the window. -/
def stockImage : SmallImage := ⟨kernelLoadAddress + 1, smallText⟩

/-- The same image with another entry point. -/
def movedEntryImage : SmallImage := ⟨kernelLoadAddress + 0x10, smallText⟩

/-- `.text` is linked at an address that the tables cannot map. -/
def misplacedImage : SmallImage := ⟨0x400010, { smallText with shAddr := 0x400000 }⟩

/-- `.text` has its contents behind the end of the file. -/
def foreignImage : SmallImage :=
  ⟨kernelLoadAddress + 0x10, { smallText with shOffset := 0x3000 }⟩

/-- The kernels that the machine is booted with. -/
def bootImages : List SmallImage := [stockImage, movedEntryImage, misplacedImage, foreignImage]

/-- What the code reads on the machine. -/
structure BootFacts (image : SmallImage) : Prop where
  info : readMultiboot (bootMachine image).mem bootMultiboot = bootInfo
  module : readModule (bootMachine image).mem bootInfo.mods = bootModule
  moduleName : CString (bootMachine image).mem bootModule.modName.toNat (bytesOf "Interlude")
  kernelName : CString (bootMachine image).mem 0x103000 (bytesOf "Interlude")
  map : MmapAt (bootMachine image).mem bootInfo.mmapAddr
    (bootInfo.mmapAddr.toNat + bootInfo.mmapLength.toNat) bootMap
  header : kernelHeader (bootMachine image).mem bootOptions.kernelStart =
    elfHeader image.entry 1
  sections : kernelSections (bootMachine image).mem bootOptions.kernelStart = [image.text]
  table : ∀ i < 2, (sectionHeaderAddr (bootMachine image).mem bootOptions.kernelStart i).toNat +
    sizeofShdr ≤ bootOptions.kernelEnd.toNat
  aligned : 4096 ∣ image.text.shAddr.toNat ∧ 4096 ∣ image.text.shOffset.toNat
  /-- Five tables, and the page table of the one page. -/
  pages : exactSize [image.text] ≤ 2 ^ 30 ∧ estimatedPages [image.text] = 6
  /-- The one page is the last in its slot. -/
  lastPage : lastPageAt (sectionPlan [image.text]) (slotOf (image.text, 0)) =
    some (image.text, 0)

theorem bootImages_facts {image : SmallImage} (h : image ∈ bootImages) : BootFacts image := by
  have hinfo : ∀ image ∈ bootImages,
      readMultiboot (bootMachine image).mem bootMultiboot = bootInfo := by
    decide +kernel
  have hmodule : ∀ image ∈ bootImages,
      readModule (bootMachine image).mem bootInfo.mods = bootModule := by
    decide +kernel
  have hnames : ∀ image ∈ bootImages,
      CString (bootMachine image).mem bootModule.modName.toNat (bytesOf "Interlude") ∧
        CString (bootMachine image).mem 0x103000 (bytesOf "Interlude") := by
    decide +kernel
  have hmap : ∀ image ∈ bootImages, MmapAt (bootMachine image).mem bootInfo.mmapAddr
      (bootInfo.mmapAddr.toNat + bootInfo.mmapLength.toNat) bootMap := by
    decide +kernel
  have hheader : ∀ image ∈ bootImages,
      kernelHeader (bootMachine image).mem bootOptions.kernelStart =
        elfHeader image.entry 1 := by
    decide +kernel
  have hsections : ∀ image ∈ bootImages,
      kernelSections (bootMachine image).mem bootOptions.kernelStart = [image.text] := by
    decide +kernel
  have htable : ∀ image ∈ bootImages, ∀ i < 2,
      (sectionHeaderAddr (bootMachine image).mem bootOptions.kernelStart i).toNat +
        sizeofShdr ≤ bootOptions.kernelEnd.toNat := by
    decide +kernel
  have htext : ∀ image ∈ bootImages,
      (4096 ∣ image.text.shAddr.toNat ∧ 4096 ∣ image.text.shOffset.toNat) ∧
        (exactSize [image.text] ≤ 2 ^ 30 ∧ estimatedPages [image.text] = 6) ∧
        lastPageAt (sectionPlan [image.text]) (slotOf (image.text, 0)) =
          some (image.text, 0) := by
    decide +kernel
  obtain ⟨haligned, hpages, hlast⟩ := htext image h
  obtain ⟨hmoduleName, hkernelName⟩ := hnames image h
  exact
    { info := hinfo image h
      module := hmodule image h
      moduleName := hmoduleName
      kernelName := hkernelName
      map := hmap image h
      header := hheader image h
      sections := hsections image h
      table := htable image h
      aligned := haligned
      pages := hpages
      lastPage := hlast }

/-- The modules of the machine. -/
def bootModules : List CommandModule := [⟨bootModule, bytesOf "Interlude"⟩]

/-- The preparation finds the kernel. -/
theorem prepareBoot_bootMachine {image : SmallImage} (h : image ∈ bootImages) :
    ∃ text, prepareBoot (bootMachine image) bootMultiboot =
      .ok { bootMachine image with console := text, options := bootOptions } := by
  have hfacts := bootImages_facts h
  have hfits : (moduleAddr bootInfo 0).toNat + sizeofMultibootModule.toNat ≤
        bootModule.modName.toNat ∧
      bootModule.modName.toNat + (bytesOf "Interlude").length < 2 ^ 32 ∧
      0x103000 + (bytesOf "Interlude").length < 2 ^ 32 := by
    decide +kernel
  have hmods : ModuleArray (bootMachine image).mem bootMultiboot bootModules := by
    refine ModuleArray.of_behind bootInfo hfacts.info (by decide) fun i hi => ?_
    obtain rfl : i = 0 := Nat.lt_one_iff.mp hi
    exact ⟨hfacts.module, hfacts.moduleName, hfits.1, hfits.2.1⟩
  have hname : KernelName (bootMachine image) (bytesOf "Interlude") :=
    ⟨hfacts.kernelName, hfits.2.2⟩
  have hkept := nameKept_of_notMem hname.string (by decide +kernel) bootModules
  have hselected : bootModules.foldl (selectModule (bytesOf "Interlude"))
      { kernelName := 0x103000 } = bootOptions := by
    decide +kernel
  rw [← hselected]
  exact prepareBoot_eq hfacts.info (by decide) hmods hname hkept (by decide +kernel)

end HosBoot.X8664

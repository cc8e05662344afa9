/-
  X8664/Init.lean --- `initMultiboot64`.

  What the bootstrapper does before it enters long mode: it checks the multiboot
  flags, reads the options, looks for the kernel among the modules and loads it.
  `Prepared` is what the steps before `load_kernel` guarantee about the options,
  whatever the boot loader passed.
-/
import HosBoot.Common.Options
import HosBoot.X8664.LoadKernel

set_option autoImplicit false

namespace HosBoot.X8664

open HosBoot.Foundation HosBoot.Common

/-! ## The functions -/

/-- `puts` of a string in memory, as `%s` prints it. -/
def BootState.puts (s : BootState) (p : Nat) : Except Halt BootState :=
  match stringAt s.mem addressSpace p with
  | none => .error .diverges
  | some text => .ok (s.print text)

/-- `kernel_option`. -/
def kernelOption : OptionCb BootOptions := fun _ value env =>
  if value = 0 then
    (0, { env with gError := some "No value given for kernel option" })
  else
    (1, { env with data := { env.data with kernelName := value } })

/-- The option table of `parse_cmdline`. -/
def cmdlineOptions : List (OptionT BootOptions) := optionTable [(bytesOf "kernel", kernelOption)]

/-- `parse_cmdline`.  Every way in which `parse_command_line` fails sets `g_error`. -/
def parseCmdline (s : BootState) (multiboot : UInt32) : Except Halt BootState := do
  let commandLine := (readMultiboot s.mem multiboot).commandLine
  let s ← (s.print (bytesOf "Using options: ")).puts commandLine.toNat
  let s := s.print (bytesOf "\n")
  match parseCommandLine commandLine.toNat cmdlineOptions ⟨s.mem, s.gError, s.options⟩ with
  | none => .error .diverges
  | some (result, _, env) =>
      let s := { s with mem := env.mem, gError := env.gError, options := env.data }
      if result = 0 then s.error (env.gError.getD "") else .ok s

/-- `check_multiboot`. -/
def checkMultiboot (s : BootState) (multiboot : UInt32) : Except Halt BootState :=
  let info := readMultiboot s.mem multiboot
  if info.flags &&& multibootModulesFlag = 0 ∨ info.modsCount = 0 then
    s.error "Bootstrapper loaded with no kernel module"
  else if info.flags &&& multibootMemMapFlag = 0 then
    s.error "Cannot find memory map"
  else
    .ok s

/-- The assignments to `kernel_start`, `kernel_end` and `highest_module_address`. -/
def takeModule (o : BootOptions) (mod : MultibootModule) (isKernel : Bool) : BootOptions :=
  let o := if isKernel then
    { o with kernelStart := mod.modStart, kernelEnd := align4kUp32 mod.modEnd } else o
  if align4kUp32 mod.modEnd > o.highestModuleAddress then
    { o with highestModuleAddress := align4kUp32 mod.modEnd }
  else
    o

/-- One turn of the loop of `parse_modules`. -/
def parseModule (s : BootState) (mod : UInt32) : Except Halt BootState :=
  -- `saveptr` is not initialised; it is read only if `mod->mod_name` is null.
  match strtokR s.mem (readModule s.mem mod).modName.toNat [space] 0 with
  | none => .error .diverges
  | some (modName, modArgs, m) =>
      match strcmp m modName m s.options.kernelName with
      | none => .error .diverges
      | some d =>
          let o := takeModule s.options (readModule m mod) (d == 0)
          let m := if modArgs ≠ 0 then m.write (modArgs - 1) space else m
          .ok { s with mem := m, options := o }

/-- The loop of `parse_modules` from index `i` on.  The index never reaches `2 ^ 32`. -/
def parseModulesLoop (multiboot : UInt32) : Nat → Nat → BootState → Except Halt BootState
  | 0, _, _ => .error .diverges
  | fuel + 1, i, s =>
      let info := readMultiboot s.mem multiboot
      if i < info.modsCount.toNat then do
        let s ← parseModule s (info.mods + sizeofMultibootModule * UInt32.ofNat i)
        parseModulesLoop multiboot fuel (i + 1) s
      else
        .ok s

/-- `parse_modules`. -/
def parseModules (s : BootState) (multiboot : UInt32) : Except Halt BootState := do
  let s ← (s.print (bytesOf "Going to load ")).puts s.options.kernelName
  parseModulesLoop multiboot (2 ^ 32) 0 (s.print (bytesOf " as kernel...\n"))

/-- `if (multiboot->flags & MULTIBOOT_CMDLINE_FLAG) parse_cmdline(multiboot)` -/
def parseCmdlineIfGiven (s : BootState) (multiboot : UInt32) : Except Halt BootState :=
  if (readMultiboot s.mem multiboot).flags &&& multibootCmdlineFlag ≠ 0 then
    parseCmdline s multiboot
  else
    .ok s

/-- `initMultiboot64` up to the call of `load_kernel`. -/
def prepareBoot (s : BootState) (multiboot : UInt32) : Except Halt BootState := do
  let s ← checkMultiboot (s.print (bytesOf "Haskell OS - x86_64 bootstrap code running\n"))
    multiboot
  let s ← parseCmdlineIfGiven s multiboot
  parseModules s multiboot

/-- `initMultiboot64` up to its last statement, the jump to `_enterLongMode`. -/
def initMultiboot64 (s : BootState) (multiboot : UInt32) : Except Halt BootState := do
  let s ← prepareBoot s multiboot
  loadKernel s multiboot

/-! ## What the preparation guarantees -/

/-- The options when `load_kernel` is entered: nothing is reserved, and the kernel ends
at or below the highest module address. -/
structure Prepared (o : BootOptions) : Prop where
  start : o.pageTableStart = 0
  finish : o.pageTableEnd = 0
  kernel : o.kernelEnd.toNat ≤ o.highestModuleAddress.toNat

theorem takeModule_eq (o : BootOptions) (mod : MultibootModule) (isKernel : Bool) :
    takeModule o mod isKernel =
      { o with
        kernelStart := if isKernel then mod.modStart else o.kernelStart
        kernelEnd := if isKernel then align4kUp32 mod.modEnd else o.kernelEnd
        highestModuleAddress :=
          if align4kUp32 mod.modEnd > o.highestModuleAddress then align4kUp32 mod.modEnd
          else o.highestModuleAddress } := by
  unfold takeModule
  by_cases hgt : align4kUp32 mod.modEnd > o.highestModuleAddress
  · cases isKernel <;> simp only [hgt, if_true, Bool.false_eq_true, if_false]
  · cases isKernel <;> simp only [hgt, if_true, Bool.false_eq_true, if_false]

theorem takeModule_highest (o : BootOptions) (mod : MultibootModule) (isKernel : Bool) :
    (takeModule o mod isKernel).highestModuleAddress.toNat =
      max o.highestModuleAddress.toNat (align4kUp32 mod.modEnd).toNat := by
  rw [takeModule_eq]
  by_cases hgt : align4kUp32 mod.modEnd > o.highestModuleAddress
  · have hlt := UInt32.lt_iff_toNat_lt.mp hgt
    exact (congrArg UInt32.toNat (if_pos hgt)).trans (by omega)
  · have hle := not_lt.mp (mt UInt32.lt_iff_toNat_lt.mpr hgt)
    exact (congrArg UInt32.toNat (if_neg hgt)).trans (by omega)

theorem takeModule_prepared {o : BootOptions} (h : Prepared o) (mod : MultibootModule)
    (isKernel : Bool) : Prepared (takeModule o mod isKernel) := by
  have hhighest := takeModule_highest o mod isKernel
  have hkernel := h.kernel
  rw [takeModule_eq] at hhighest ⊢
  refine ⟨h.start, h.finish, hhighest.symm ▸ ?_⟩
  cases isKernel with
  | true => exact Nat.le_max_right _ _
  | false => exact hkernel.trans (Nat.le_max_left _ _)

theorem puts_options {s s' : BootState} {p : Nat} (h : s.puts p = .ok s') :
    s'.options = s.options := by
  unfold BootState.puts at h
  cases htext : stringAt s.mem addressSpace p with
  | none =>
    rw [htext] at h
    cases h
  | some text =>
    rw [htext] at h
    rw [← Except.ok.inj h, BootState.print_options]

theorem parseModule_prepared {s s' : BootState} {mod : UInt32} (h : parseModule s mod = .ok s')
    (hs : Prepared s.options) : Prepared s'.options := by
  unfold parseModule at h
  cases htok : strtokR s.mem (readModule s.mem mod).modName.toNat [space] 0 with
  | none =>
    rw [htok] at h
    cases h
  | some r =>
    obtain ⟨modName, modArgs, m⟩ := r
    rw [htok] at h
    simp only at h
    cases hcmp : strcmp m modName m s.options.kernelName with
    | none =>
      rw [hcmp] at h
      cases h
    | some d =>
      rw [hcmp] at h
      rw [← Except.ok.inj h]
      exact takeModule_prepared hs _ _

theorem parseModulesLoop_prepared {multiboot : UInt32} :
    ∀ {fuel i : Nat} {s s' : BootState}, parseModulesLoop multiboot fuel i s = .ok s' →
      Prepared s.options → Prepared s'.options := by
  intro fuel
  induction fuel with
  | zero =>
    intro i s s' h _
    cases h
  | succ fuel ih =>
    intro i s s' h hs
    unfold parseModulesLoop at h
    by_cases hi : i < (readMultiboot s.mem multiboot).modsCount.toNat
    · simp only [if_pos hi] at h
      obtain ⟨s₁, hturn, hrest⟩ := bind_eq_ok.mp h
      exact ih hrest (parseModule_prepared hturn hs)
    · simp only [if_neg hi] at h
      obtain rfl := Except.ok.inj h
      exact hs

/-- Options do not touch what `Prepared` speaks of. -/
theorem kernelOption_prepared (name value : Nat) (env : OptionEnv BootOptions)
    (h : Prepared env.data) : Prepared (kernelOption name value env).2.data := by
  unfold kernelOption
  split
  · exact h
  · exact ⟨h.start, h.finish, h.kernel⟩

theorem parseCmdline_prepared {s s' : BootState} {multiboot : UInt32}
    (h : parseCmdline s multiboot = .ok s') (hs : Prepared s.options) :
    Prepared s'.options := by
  unfold parseCmdline at h
  obtain ⟨s₁, hputs, h⟩ := bind_eq_ok.mp h
  have hs₁ : Prepared s₁.options := by
    rw [puts_options hputs]
    exact hs
  cases hparse : parseCommandLine (readMultiboot s.mem multiboot).commandLine.toNat
      cmdlineOptions ⟨(s₁.print (bytesOf "\n")).mem, (s₁.print (bytesOf "\n")).gError,
        (s₁.print (bytesOf "\n")).options⟩ with
  | none =>
    simp only [hparse] at h
    cases h
  | some r =>
    obtain ⟨result, calls, env⟩ := r
    have henv : Prepared env.data := by
      refine parseCommandLine_data ?_ hparse hs₁
      intro entry hentry cb hcb name value env hdata
      rcases List.mem_cons.mp hentry with rfl | hlast
      · obtain rfl := Option.some.inj hcb
        exact kernelOption_prepared name value env hdata
      · obtain rfl := List.mem_singleton.mp hlast
        cases hcb
    simp only [hparse] at h
    split at h
    · exact absurd h (BootState.error_ne_ok _ _ _)
    · rw [← Except.ok.inj h]
      exact henv

theorem checkMultiboot_eq_ok {s s' : BootState} {multiboot : UInt32} :
    checkMultiboot s multiboot = .ok s' ↔
      ((readMultiboot s.mem multiboot).flags &&& multibootModulesFlag ≠ 0 ∧
        (readMultiboot s.mem multiboot).modsCount ≠ 0 ∧
        (readMultiboot s.mem multiboot).flags &&& multibootMemMapFlag ≠ 0) ∧ s' = s := by
  unfold checkMultiboot
  generalize readMultiboot s.mem multiboot = info
  dsimp only
  constructor
  · intro h
    split at h
    · exact absurd h (BootState.error_ne_ok _ _ _)
    · rename_i hmodules
      split at h
      · exact absurd h (BootState.error_ne_ok _ _ _)
      · rename_i hmap
        obtain ⟨hflag, hcount⟩ := not_or.mp hmodules
        exact ⟨⟨hflag, hcount, hmap⟩, (Except.ok.inj h).symm⟩
  · rintro ⟨⟨hflag, hcount, hmap⟩, rfl⟩
    rw [if_neg (not_or.mpr ⟨hflag, hcount⟩), if_neg hmap]

/-- The preparation ends in prepared options. -/
theorem prepareBoot_prepared {s s' : BootState} {multiboot : UInt32}
    (h : prepareBoot s multiboot = .ok s') (hs : Prepared s.options) :
    Prepared s'.options := by
  obtain ⟨s₁, hcheck, hrest⟩ := bind_eq_ok.mp h
  obtain ⟨s₂, hcmdline, hmodules⟩ := bind_eq_ok.mp hrest
  obtain ⟨s₃, hputs, hloop⟩ := bind_eq_ok.mp hmodules
  obtain ⟨_, rfl⟩ := checkMultiboot_eq_ok.mp hcheck
  have hs₂ : Prepared s₂.options := by
    unfold parseCmdlineIfGiven at hcmdline
    split at hcmdline
    · exact parseCmdline_prepared hcmdline hs
    · obtain rfl := Except.ok.inj hcmdline
      exact hs
  refine parseModulesLoop_prepared hloop ?_
  rw [BootState.print_options, puts_options hputs]
  exact hs₂

end HosBoot.X8664

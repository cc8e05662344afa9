/-
  Common/Options.lean --- the command-line parser of `options.c`.

  `parse_command_line` cuts the line at spaces and every token at its `=` signs,
  both in place, and calls the function that the option table gives for the name.
  The model threads memory, `g_error` and `data` through the callbacks and records
  each call with the environment it was given.

  The result is stated against the line as it was: its tokens are the maximal
  runs between spaces, and `Transcript` says which calls a list of tokens leads
  to, each on what the one before it left, and what the last one leaves.
-/
import HosBoot.Common.CString

set_option autoImplicit false

namespace HosBoot.Common

open HosBoot.Foundation

/-! ## The functions -/

/-- What a callback may read and change: memory, `g_error`, and what `data` points to. -/
structure OptionEnv (σ : Type) where
  mem : Mem
  gError : Option String
  data : σ

/-- `option_cb`: name and value pointers to a result. -/
abbrev OptionCb (σ : Type) : Type := Nat → Nat → OptionEnv σ → Int32 × OptionEnv σ

/-- `option_t`. -/
structure OptionT (σ : Type) where
  name : Option (List UInt8)
  cb : Option (OptionCb σ)

/-- A call of a callback. -/
structure OptionCall (σ : Type) where
  /-- The index of the table entry. -/
  entry : Nat
  optionName : Nat
  optionValue : Nat
  /-- The environment that the callback was given. -/
  env : OptionEnv σ
  /-- What the callback returned. -/
  result : Int32

section Functions

variable {σ : Type}

/-- `'='` -/
def equalsSign : UInt8 := 0x3D
/-- `' '` -/
def space : UInt8 := 0x20

/-- `parse_option`: the two pointers and the memory. -/
def parseOption (m : Mem) (option : Nat) : Option (Nat × Nat × Mem) := do
  let (optionName, saveptr, m) ← strtokR m option [equalsSign] 0
  let (optionValue, _, m) ← strtokR m 0 [equalsSign] saveptr
  return (optionName, optionValue, m)

/-- The loop of `find_option` from entry `i` on: the entry whose name is the string at
`option`, if the loop finds one before the end of the table. -/
def findOptionLoop (m : Mem) (option : Nat) : List (OptionT σ) → Nat → Option (Option Nat)
  | [], _ => none
  | entry :: rest, i =>
      match entry.name, entry.cb with
      | some name, some _ => do
          let d ← strcmp m option (constChars name) 0
          if d = 0 then return some i else findOptionLoop m option rest (i + 1)
      | _, _ => some none

/-- `find_option`. -/
def findOption (options : List (OptionT σ)) (option : Nat) (env : OptionEnv σ) :
    Option (Option Nat × OptionEnv σ) := do
  match ← findOptionLoop env.mem option options 0 with
  | some i => return (some i, env)
  | none => return (none, { env with gError := some "Encountered unknown option" })

/-- The loop of `parse_command_line`: the result, the calls made and the state. -/
def parseLoop (options : List (OptionT σ)) :
    Nat → Nat → Nat → OptionEnv σ → Option (Int32 × List (OptionCall σ) × OptionEnv σ)
  | 0, _, _, _ => none
  | fuel + 1, option, saveptr, env =>
      if option = 0 then
        some (1, [], env)
      else do
        let (optionName, optionValue, m) ← parseOption env.mem option
        let (found, env) ← findOption options option { env with mem := m }
        match found with
        | none => return (0, [], env)
        | some i =>
            match (options[i]?).bind OptionT.cb with
            | none =>
                return (0, [], { env with
                  gError := some "Invalid callback given in option structure" })
            | some cb =>
                let (result, env') := cb optionName optionValue env
                let call : OptionCall σ := ⟨i, optionName, optionValue, env, result⟩
                if result = 0 then
                  return (0, [call], env')
                else
                  let (option, saveptr, m) ← strtokR env'.mem 0 [space] saveptr
                  let (r, calls, env'') ←
                    parseLoop options fuel option saveptr { env' with mem := m }
                  return (r, call :: calls, env'')

/-- `parse_command_line`. -/
def parseCommandLine (commandLine : Nat) (options : List (OptionT σ)) (env : OptionEnv σ) :
    Option (Int32 × List (OptionCall σ) × OptionEnv σ) := do
  let (option, saveptr, m) ← strtokR env.mem commandLine [space] 0
  parseLoop options addressSpace option saveptr { env with mem := m }

end Functions

/-! ## What a line means -/

/-- The maximal runs of characters that are no spaces. -/
def tokens (line : List UInt8) : List (List UInt8) := runs (· == space) line

/-- The text of a token before its first `=`. -/
def nameOf (token : List UInt8) : List UInt8 := token.takeWhile (· != equalsSign)

/-- The first non-empty run without `=` behind the name. -/
def valueOf (token : List UInt8) : Option (List UInt8) :=
  (runs (· == equalsSign) (token.drop (nameOf token).length)).head?

/-- The first entry of the table with a given name. -/
def entryNamed {σ : Type} (entries : List (List UInt8 × OptionCb σ)) (name : List UInt8) :
    Option Nat := entries.findIdx? fun entry => entry.1 == name

/-- A table of entries, as the C program terminates it. -/
def optionTable {σ : Type} (entries : List (List UInt8 × OptionCb σ)) : List (OptionT σ) :=
  (entries.map fun entry => ⟨some entry.1, some entry.2⟩) ++ [⟨none, none⟩]

/-- The two pointers lead to the name and the value of the token. -/
structure Receives (m : Mem) (optionName optionValue : Nat) (token : List UInt8) : Prop where
  name : CString m optionName (nameOf token)
  noValue : valueOf token = none → optionValue = 0
  value : ∀ v, valueOf token = some v → optionValue ≠ 0 ∧ CString m optionValue v

/-- The parser's own writes: nothing changes but bytes of the line. -/
structure CutsLine {σ : Type} (line len : Nat) (env env' : OptionEnv σ) : Prop where
  mem : SameOutside (InRange line len) env.mem env'.mem
  gError : env'.gError = env.gError
  data : env'.data = env.data

/-- The calls, the result and the last environment that a list of tokens leads to from
`env`: each token calls the callback of the first entry of its name, on what the call before
left, up to the first token that is unknown or refused. -/
def Transcript {σ : Type} (entries : List (List UInt8 × OptionCb σ)) (line len : Nat) :
    List (List UInt8) → OptionEnv σ → List (OptionCall σ) → Int32 → OptionEnv σ → Prop
  | [], env, calls, r, last => calls = [] ∧ r = 1 ∧ CutsLine line len env last
  | token :: rest, env, calls, r, last =>
      match entryNamed entries (nameOf token) with
      | none => calls = [] ∧ r = 0 ∧
          CutsLine line len { env with gError := some "Encountered unknown option" } last
      | some i =>
          ∃ entry call later next, entries[i]? = some entry ∧ calls = call :: later ∧
            call.entry = i ∧ CutsLine line len env call.env ∧
            Receives call.env.mem call.optionName call.optionValue token ∧
            entry.2 call.optionName call.optionValue call.env = (call.result, next) ∧
            if call.result = 0 then later = [] ∧ r = 0 ∧ last = next
            else Transcript entries line len rest next later r last

/-! ## One token -/

theorem isDelim_singleton (d : UInt8) : isDelim [d] = (· == d) := by
  funext c
  rw [isDelim, List.contains_cons, List.contains_nil, Bool.or_false]

section Token

variable {pre run rest : List UInt8}

/-- A token that starts with its name. -/
theorem nameOf_run (h : IsRun (· == equalsSign) run) : nameOf run = run := by
  refine List.takeWhile_eq_self_iff.mpr fun c hc => ?_
  simpa using h.clear c hc

theorem nameOf_run_cons (h : IsRun (· == equalsSign) run) {sep : UInt8}
    (hsep : (sep == equalsSign) = true) : nameOf (run ++ sep :: rest) = run := by
  have hall : ∀ c ∈ run, (c != equalsSign) = true := fun c hc => by simpa using h.clear c hc
  have hstop : (sep != equalsSign) = false := by simpa using hsep
  rw [nameOf, List.takeWhile_append_of_pos hall, List.takeWhile_cons_of_neg (by simp [hstop]),
    List.append_nil]

/-- A token that starts with `=` has no name. -/
theorem nameOf_separator {c : UInt8} (hc : (c == equalsSign) = true) :
    nameOf (c :: rest) = [] := by
  have hstop : (c != equalsSign) = false := by simpa using hc
  rw [nameOf, List.takeWhile_cons_of_neg (by simp [hstop])]

/-- A string that starts with `=` is no name of the table. -/
theorem ne_name_of_separator {c : UInt8} (hc : (c == equalsSign) = true) {name : List UInt8}
    (hname : equalsSign ∉ name) : c :: rest ≠ name := by
  rintro rfl
  rw [beq_iff_eq] at hc
  exact hname (hc ▸ List.mem_cons_self)

end Token

/-- The second call of `parse_option`, on what the first one left. -/
theorem valueCall_spec {m : Mem} {saveptr : Nat} {rest : List UInt8}
    (h : Pending m saveptr rest) (hlen : rest.length < addressSpace) :
    ∃ optionValue saveptr' m', strtokR m 0 [equalsSign] saveptr =
        some (optionValue, saveptr', m') ∧
      SameOutside (InRange saveptr rest.length) m m' ∧
      ((runs (· == equalsSign) rest).head? = none → optionValue = 0) ∧
      ∀ v, (runs (· == equalsSign) rest).head? = some v →
        optionValue ≠ 0 ∧ CString m' optionValue v := by
  have hp : (if 0 ≠ 0 then 0 else saveptr) = saveptr := rfl
  obtain ⟨tok, saveptr', m', hcall, hcases⟩ := strtokR_spec [equalsSign] hp h hlen
  rw [isDelim_singleton] at hcases
  refine ⟨tok, saveptr', m', hcall, ?_⟩
  rcases hcases with ⟨hruns, htok, rfl⟩ | ⟨run, later, hruns, _, hscan⟩
  · rw [hruns]
    exact ⟨SameOutside.refl _ _, fun _ => htok, by simp⟩
  · rw [hruns]
    refine ⟨hscan.frameIn, by simp, fun v hv => ?_⟩
    obtain rfl := Option.some.inj hv
    exact ⟨hscan.tok_ne, hscan.token⟩

/-- What `parse_option` does with a token: it writes inside the token only; the string left at
its start matches a name of a table exactly when the token has that name; and the pointers are
right when the token has a name. -/
def ParsesToken (m : Mem) (s : Nat) (token : List UInt8) : Prop :=
  ∃ optionName optionValue m', parseOption m s = some (optionName, optionValue, m') ∧
    SameOutside (InRange s token.length) m m' ∧
    (∃ x, CString m' s x ∧ x.length ≤ token.length ∧
      ∀ name, name ≠ [] → equalsSign ∉ name → (x = name ↔ nameOf token = name)) ∧
    (nameOf token ≠ [] → Receives m' optionName optionValue token)

/-- `parse_option`, from what its first call leaves: the string `x` at the start of
the token, and behind it the rest. -/
theorem parseOption_of_first {m m₁ : Mem} {s optionName saveptr : Nat}
    {token x rest : List UInt8} (hlen : token.length < addressSpace)
    (hfirst : strtokR m s [equalsSign] 0 = some (optionName, saveptr, m₁))
    (hpending : Pending m₁ saveptr rest) (hframe : SameOutside (InRange s token.length) m m₁)
    (hx : CString m₁ s x) (hxlen : x.length ≤ token.length)
    (hbehind : saveptr ≠ 0 → s + x.length < saveptr ∧ saveptr + rest.length = s + token.length)
    (hmatch : ∀ name, name ≠ [] → equalsSign ∉ name → (x = name ↔ nameOf token = name))
    (hname : nameOf token ≠ [] → optionName = s ∧ x = nameOf token ∧
      valueOf token = (runs (· == equalsSign) rest).head?) :
    ParsesToken m s token := by
  have hrest : saveptr = 0 → rest = [] := by
    rcases hpending with ⟨_, hnil⟩ | ⟨hne, _⟩
    · exact fun _ => hnil
    · exact fun hzero => absurd hzero hne
  have hrestlen : rest.length < addressSpace := by
    by_cases hzero : saveptr = 0
    · rw [hrest hzero]
      exact Nat.zero_lt_of_lt hlen
    · have hback := hbehind hzero
      omega
  obtain ⟨optionValue, saveptr', m', hcall, hframe', hnone, hsome⟩ :=
    valueCall_spec hpending hrestlen
  have hinside : ∀ a, InRange saveptr rest.length a → InRange s token.length a ∧
      s + x.length < a := by
    intro a ha
    by_cases hzero : saveptr = 0
    · rw [hrest hzero] at ha
      exact absurd ha.2 (by simp [ha.1])
    · have hback := hbehind hzero
      unfold InRange at ha ⊢
      omega
  have hx' : CString m' s x := by
    refine hx.congr fun a ha => hframe' a fun hin => ?_
    have hlt := (hinside a hin).2
    have hend := ha.2
    omega
  refine ⟨optionName, optionValue, m', ?_, ?_, ⟨x, hx', hxlen, hmatch⟩, fun hne => ?_⟩
  · simp only [parseOption, hfirst, hcall, Option.bind_eq_bind, Option.bind_some]
    rfl
  · exact hframe.trans (hframe'.mono fun a ha => (hinside a ha).1)
  · obtain ⟨hstart, hxname, hvalue⟩ := hname hne
    refine
      { name := ?_
        noValue := fun h => hnone (hvalue ▸ h)
        value := fun v hv => hsome v (hvalue ▸ hv) }
    rw [hstart, ← hxname]
    exact hx'

/-- The string that the first call leaves at the start of the token, `pre ++ run`,
matches the names that the token has. -/
theorem first_matches {pre run token name : List UInt8}
    (hpre : ∀ c ∈ pre, (c == equalsSign) = true) (hname : pre = [] → nameOf token = run)
    (hnone : pre ≠ [] → nameOf token = []) (hne : name ≠ []) (hclear : equalsSign ∉ name) :
    pre ++ run = name ↔ nameOf token = name := by
  cases pre with
  | nil => rw [List.nil_append, hname rfl]
  | cons c cs =>
    rw [hnone (List.cons_ne_nil c cs)]
    refine ⟨fun hx => absurd hx ?_, fun hx => absurd hx.symm hne⟩
    exact ne_name_of_separator (hpre c List.mem_cons_self) hclear

/-- `parse_option` on a token. -/
theorem parseOption_spec {m : Mem} {s : Nat} {token : List UInt8} (h : CString m s token)
    (hs : s ≠ 0) (htoken : token ≠ []) (hlen : token.length < addressSpace) :
    ParsesToken m s token := by
  have hp : (if s ≠ 0 then s else 0) = s := if_pos hs
  have hdelim := isDelim_singleton equalsSign
  rcases scan_cases (· == equalsSign) token with hall | ⟨pre, run, rfl, hpre, hrun⟩ |
    ⟨pre, run, sep, rest, rfl, hpre, hrun, hsep⟩
  · -- Nothing but `=` signs: both results are null.
    have hfirst := strtokR_none hp hs h (by rw [hdelim]; exact hall) hlen
    have hname : nameOf token = [] := by
      obtain ⟨c, cs, rfl⟩ := List.exists_cons_of_ne_nil htoken
      exact nameOf_separator (hall c List.mem_cons_self)
    refine parseOption_of_first hlen hfirst (Or.inl ⟨rfl, rfl⟩) (SameOutside.refl _ _) h
      (Nat.le_refl _) (fun hne => absurd rfl hne) (fun name hne hclear => ?_)
      fun hne => absurd hname hne
    have hmatch : token ++ [] = name ↔ nameOf token = name :=
      first_matches hall (fun hnil => absurd hnil htoken) (fun _ => hname) hne hclear
    rwa [List.append_nil] at hmatch
  · -- The first call takes the rest of the token.
    have hfirst := strtokR_last hp hs h (by rw [hdelim]; exact hpre)
      (by rw [hdelim]; exact hrun) hlen
    have hname : pre = [] → nameOf (pre ++ run) = run := by
      rintro rfl
      exact nameOf_run hrun
    have hnone : pre ≠ [] → nameOf (pre ++ run) = [] := by
      intro hne
      obtain ⟨c, cs, rfl⟩ := List.exists_cons_of_ne_nil hne
      exact nameOf_separator (hpre c List.mem_cons_self)
    refine parseOption_of_first hlen hfirst (Or.inl ⟨rfl, rfl⟩) (SameOutside.refl _ _) h
      (Nat.le_refl _) (fun hne => absurd rfl hne) (fun name hne hclear => ?_) fun hne => ?_
    · exact first_matches hpre hname hnone hne hclear
    · have hnil : pre = [] := by
        by_contra hpos
        exact hne (hnone hpos)
      subst hnil
      refine ⟨rfl, (nameOf_run hrun).symm, ?_⟩
      rw [List.nil_append, valueOf, nameOf_run hrun, List.drop_length]
  · -- The first call cuts the token at its first `=` behind the name.
    have hfirst := strtokR_cons hp hs h (by rw [hdelim]; exact hpre)
      (by rw [hdelim]; exact hrun) (by rw [hdelim]; exact hsep) hlen
    have hname : pre = [] → nameOf (pre ++ (run ++ sep :: rest)) = run := by
      rintro rfl
      exact nameOf_run_cons hrun hsep
    have hnone : pre ≠ [] → nameOf (pre ++ (run ++ sep :: rest)) = [] := by
      intro hne
      obtain ⟨c, cs, rfl⟩ := List.exists_cons_of_ne_nil hne
      exact nameOf_separator (hpre c List.mem_cons_self)
    have hx : CString (m.write (s + pre.length + run.length) 0) s (pre ++ run) := by
      have hcut : CString m s ((pre ++ run) ++ sep :: rest) := by rwa [List.append_assoc]
      have haddr : s + pre.length + run.length = s + (pre ++ run).length := by
        rw [List.length_append]
        omega
      rw [haddr]
      exact hcut.cut
    have hrest : CString (m.write (s + pre.length + run.length) 0)
        (s + pre.length + run.length + 1) rest := by
      refine CString.congr h.drop.drop.2.2 fun a ha => Mem.write_of_ne ?_
      unfold InRange at ha
      omega
    refine parseOption_of_first hlen hfirst (Or.inr ⟨by omega, hrest⟩) (fun a ha => ?_) hx
      (by simp only [List.length_append]; omega) (fun _ => ?_) (fun name hne hclear => ?_)
      fun hne => ?_
    · refine Mem.write_of_ne fun heq => ha ?_
      unfold InRange
      simp only [List.length_append, List.length_cons]
      omega
    · simp only [List.length_append, List.length_cons]
      omega
    · exact first_matches hpre hname hnone hne hclear
    · have hnil : pre = [] := by
        by_contra hpos
        exact hne (hnone hpos)
      subst hnil
      have hskip : runs (· == equalsSign) ([sep] ++ rest) = runs (· == equalsSign) rest :=
        runs_skip (by simpa using hsep) rest
      refine ⟨rfl, (hname rfl).symm, ?_⟩
      rw [valueOf, hname rfl, List.nil_append, List.drop_left, ← hskip]
      rfl

/-! ## The table -/

section Table

variable {σ : Type} {entries : List (List UInt8 × OptionCb σ)}

/-- A name that a token can have: a C string, not empty and without `=`. -/
structure ProperName (name : List UInt8) : Prop where
  ne_nil : name ≠ []
  noZero : 0 ∉ name
  noEquals : equalsSign ∉ name

/-- `find_option` finds the first entry whose name is the string at `option`. -/
theorem findOptionLoop_eq {m : Mem} {option : Nat} {x wanted : List UInt8}
    (hx : CString m option x) (hlen : x.length < addressSpace)
    (hmatch : ∀ name, ProperName name → (x = name ↔ wanted = name)) :
    ∀ (entries : List (List UInt8 × OptionCb σ)) (i : Nat),
      (∀ entry ∈ entries, ProperName entry.1) →
      findOptionLoop m option (optionTable entries) i =
        some ((entryNamed entries wanted).map (· + i)) := by
  intro entries
  induction entries with
  | nil => intro i _; rfl
  | cons entry rest ih =>
    intro i hnames
    have hname := hnames entry List.mem_cons_self
    obtain ⟨d, hd, hiff⟩ := strcmpLoop_eq hx (CString.const hname.noZero) hlen
    have hcmp : strcmp m option (constChars entry.1) 0 = some d := hd
    have hrest := ih (i + 1) fun e he => hnames e (List.mem_cons_of_mem entry he)
    have hunfold : findOptionLoop m option (optionTable (entry :: rest)) i =
        (strcmp m option (constChars entry.1) 0).bind fun d =>
          if d = 0 then some (some i)
          else findOptionLoop m option (optionTable rest) (i + 1) := rfl
    rw [hunfold, hcmp, Option.bind_some, entryNamed, List.findIdx?_cons]
    by_cases hzero : d = 0
    · have hwanted : wanted = entry.1 := (hmatch _ hname).mp (hiff.mp hzero)
      rw [if_pos hzero, if_pos (by simp [hwanted])]
      simp
    · have hwanted : entry.1 ≠ wanted := fun h => hzero (hiff.mpr ((hmatch _ hname).mpr h.symm))
      rw [if_neg hzero, if_neg (by simp [hwanted]), hrest, entryNamed]
      cases rest.findIdx? fun entry => entry.1 == wanted with
      | none => rfl
      | some j =>
        simp only [Option.map_some, Option.some.injEq]
        omega

/-- The entry of a name, in the table that the C program reads. -/
theorem optionTable_getElem {name : List UInt8} {i : Nat}
    (h : entryNamed entries name = some i) :
    ∃ entry, entries[i]? = some entry ∧ entry.1 = name ∧
      ((optionTable entries)[i]?).bind OptionT.cb = some entry.2 := by
  obtain ⟨hlt, hname, _⟩ := List.findIdx?_eq_some_iff_getElem.mp h
  refine ⟨entries[i], List.getElem?_eq_getElem hlt, by simpa using hname, ?_⟩
  rw [optionTable, List.getElem?_append_left (by simpa using hlt), List.getElem?_map,
    List.getElem?_eq_getElem hlt]
  rfl

end Table

/-! ## The loop -/

section Loop

variable {σ : Type} {entries : List (List UInt8 × OptionCb σ)}

/-- The callbacks do not write to the line. -/
def KeepsLine (entries : List (List UInt8 × OptionCb σ)) (line len : Nat) : Prop :=
  ∀ entry ∈ entries, ∀ optionName optionValue env a, InRange line (len + 1) a →
    (entry.2 optionName optionValue env).2.mem a = env.mem a

/-- The loop at a token, with the rest of the line behind it. -/
structure AtToken (m : Mem) (line len option saveptr : Nat) (token rest : List UInt8) : Prop where
  option_ne : option ≠ 0
  isRun : IsRun (· == space) token
  string : CString m option token
  pending : Pending m saveptr rest
  lower : line ≤ option
  upper : option + token.length ≤ line + len
  behind : saveptr ≠ 0 → option + token.length < saveptr ∧ saveptr + rest.length = line + len

/-- What is left after a token has been parsed and its callback has run is what was
left before. -/
theorem AtToken.pending_after {m m' m'' : Mem} {line len option saveptr : Nat}
    {token rest : List UInt8} (h : AtToken m line len option saveptr token rest)
    (hparse : SameOutside (InRange option token.length) m m')
    (hcall : ∀ a, InRange line (len + 1) a → m'' a = m' a) : Pending m'' saveptr rest := by
  rcases h.pending with hnone | ⟨hne, hstring⟩
  · exact Or.inl hnone
  · obtain ⟨hlt, hend⟩ := h.behind hne
    have hlower := h.lower
    refine Or.inr ⟨hne, hstring.congr fun a ha => ?_⟩
    have hline : InRange line (len + 1) a := ha.widen (by omega) (by omega)
    refine (hcall a hline).trans (hparse a fun hin => ?_)
    unfold InRange at ha hin
    omega

/-- There is a next token only if something was saved. -/
theorem AtToken.saveptr_ne {m m' m'' : Mem} {line len option saveptr tok saveptr' : Nat}
    {token rest run later : List UInt8} (h : AtToken m line len option saveptr token rest)
    (hrun : IsRun (· == space) run) (hscan : Scanned m' m'' saveptr rest tok saveptr' run later) :
    saveptr ≠ 0 := by
  have htok := hscan.lower
  have htokend := hscan.upper
  have hpos : 0 < run.length := List.length_pos_iff.mpr hrun.ne_nil
  rcases h.pending with ⟨_, hnil⟩ | ⟨hne, _⟩
  · rw [hnil] at htokend
    intro hzero
    rw [hzero, List.length_nil] at htokend
    omega
  · exact hne

/-- The next token is further on, and less is left behind it. -/
theorem AtToken.next {m m' m'' : Mem} {line len option saveptr tok saveptr' : Nat}
    {token rest run later : List UInt8} (h : AtToken m line len option saveptr token rest)
    (hrun : IsRun (· == space) run) (hscan : Scanned m' m'' saveptr rest tok saveptr' run later) :
    later.length < rest.length ∧ AtToken m'' line len tok saveptr' run later := by
  have hlower := h.lower
  have htok := hscan.lower
  have htokend := hscan.upper
  have hpos : 0 < run.length := List.length_pos_iff.mpr hrun.ne_nil
  obtain ⟨hlt, hend⟩ := h.behind (h.saveptr_ne hrun hscan)
  constructor
  · rcases hscan.pending with ⟨_, hnil⟩ | ⟨hne, _⟩
    · rw [hnil, List.length_nil]
      omega
    · obtain ⟨hlt', hend'⟩ := hscan.behind hne
      omega
  · refine
      { option_ne := hscan.tok_ne
        isRun := hrun
        string := hscan.token
        pending := hscan.pending
        lower := by omega
        upper := by omega
        behind := fun hne => ?_ }
    obtain ⟨hlt', hend'⟩ := hscan.behind hne
    exact ⟨hlt', by omega⟩

theorem CutsLine.refl (line len : Nat) (env : OptionEnv σ) : CutsLine line len env env :=
  ⟨SameOutside.refl _ _, rfl, rfl⟩

theorem CutsLine.trans {line len : Nat} {env₁ env₂ env₃ : OptionEnv σ}
    (h₁ : CutsLine line len env₁ env₂) (h₂ : CutsLine line len env₂ env₃) :
    CutsLine line len env₁ env₃ :=
  ⟨h₁.mem.trans h₂.mem, h₂.gError.trans h₁.gError, h₂.data.trans h₁.data⟩

/-- A write inside the line. -/
theorem CutsLine.of_mem {line len a n : Nat} {env : OptionEnv σ} {m : Mem}
    (h : SameOutside (InRange a n) env.mem m) (hlower : line ≤ a) (hupper : a + n ≤ line + len) :
    CutsLine line len env { env with mem := m } :=
  ⟨h.mono fun _ hin => hin.widen hlower hupper, rfl, rfl⟩

/-- What was cut before does not matter. -/
theorem Transcript.of_cuts {line len : Nat} {toks : List (List UInt8)} {env env₁ last : OptionEnv σ}
    {calls : List (OptionCall σ)} {r : Int32} (hcuts : CutsLine line len env env₁)
    (h : Transcript entries line len toks env₁ calls r last) :
    Transcript entries line len toks env calls r last := by
  cases toks with
  | nil =>
    obtain ⟨hcalls, hr, hlast⟩ := h
    exact ⟨hcalls, hr, hcuts.trans hlast⟩
  | cons token rest =>
    unfold Transcript at h ⊢
    cases hentry : entryNamed entries (nameOf token) with
    | none =>
      rw [hentry] at h
      obtain ⟨hcalls, hr, hlast⟩ := h
      exact ⟨hcalls, hr, ⟨hcuts.mem.trans hlast.mem, hlast.gError, hlast.data.trans hcuts.data⟩⟩
    | some i =>
      rw [hentry] at h
      obtain ⟨entry, call, later, next, hi, hcalls, hcall, hbefore, hlater⟩ := h
      exact ⟨entry, call, later, next, hi, hcalls, hcall, hcuts.trans hbefore, hlater⟩

/-- From a token on, the loop makes the calls of the token and of the rest. -/
theorem parseLoop_spec {line len : Nat} (hnames : ∀ entry ∈ entries, ProperName entry.1)
    (hkeeps : KeepsLine entries line len) (hspace : line + len < addressSpace) :
    ∀ (fuel option saveptr : Nat) (env : OptionEnv σ) (token rest : List UInt8),
      rest.length + 2 ≤ fuel → AtToken env.mem line len option saveptr token rest →
      ∃ r calls last, parseLoop (optionTable entries) fuel option saveptr env =
          some (r, calls, last) ∧
        Transcript entries line len (token :: tokens rest) env calls r last := by
  intro fuel
  induction fuel with
  | zero => intro option saveptr env token rest hfuel; omega
  | succ fuel ih =>
    intro option saveptr env token rest hfuel hat
    have hlower := hat.lower
    have hupper := hat.upper
    obtain ⟨optionName, optionValue, m', hparse, hframe, ⟨x, hx, hxlen, hmatch⟩, hreceives⟩ :=
      parseOption_spec hat.string hat.option_ne hat.isRun.ne_nil (by omega)
    have hfind := findOptionLoop_eq hx (by omega)
      (fun name hname => hmatch name hname.ne_nil hname.noEquals) entries 0 hnames
    have hcut : CutsLine line len env { env with mem := m' } := .of_mem hframe hlower hupper
    rw [parseLoop, if_neg hat.option_ne]
    simp only [hparse, findOption, hfind, Option.bind_eq_bind, Option.bind_some]
    unfold Transcript
    cases hentry : entryNamed entries (nameOf token) with
    | none => exact ⟨_, _, _, rfl, rfl, rfl, ⟨hcut.mem, rfl, rfl⟩⟩
    | some i =>
      obtain ⟨entry, hi, hname, hcb⟩ := optionTable_getElem hentry
      have hmem : entry ∈ entries := List.mem_of_getElem? hi
      have hne : nameOf token ≠ [] := hname ▸ (hnames entry hmem).ne_nil
      simp only [Option.map_some, Nat.add_zero, Option.pure_def, Option.bind_some, hcb]
      have hkeep := hkeeps entry hmem optionName optionValue { env with mem := m' }
      obtain ⟨answer, hanswer⟩ : ∃ answer, entry.2 optionName optionValue { env with mem := m' } =
        answer := ⟨_, rfl⟩
      rw [hanswer] at hkeep ⊢
      by_cases hzero : answer.1 = 0
      · simp only [if_pos hzero]
        exact ⟨_, _, _, rfl, entry, _, _, answer.2, hi, rfl, rfl, hcut, hreceives hne, hanswer,
          by simp [hzero]⟩
      · have hpending := hat.pending_after hframe hkeep
        have hrestlen : rest.length < addressSpace := by
          rcases hat.pending with ⟨_, rfl⟩ | ⟨hsave, _⟩
          · exact Nat.zero_lt_of_lt hspace
          · have hback := hat.behind hsave
            omega
        have hp : (if 0 ≠ 0 then 0 else saveptr) = saveptr := rfl
        obtain ⟨tok, saveptr', m'', hnext, hcases⟩ := strtokR_spec [space] hp hpending hrestlen
        rw [isDelim_singleton] at hcases
        simp only [if_neg hzero, hnext, Option.bind_some]
        rcases hcases with ⟨hruns, rfl, rfl⟩ | ⟨run, later, hruns, hrun, hscan⟩
        · -- No token is left.
          obtain ⟨fuel, rfl⟩ : ∃ f, fuel = f + 1 := ⟨fuel - 1, by omega⟩
          rw [parseLoop, if_pos rfl]
          refine ⟨_, _, _, rfl, entry, _, _, answer.2, hi, rfl, rfl, hcut, hreceives hne, hanswer, ?_⟩
          rw [tokens, hruns, if_neg hzero]
          exact ⟨rfl, rfl, CutsLine.refl _ _ _⟩
        · -- The next turn starts at the next token.
          obtain ⟨hshorter, hnextAt⟩ := hat.next hrun hscan
          have hrestIn : line ≤ saveptr ∧ saveptr + rest.length ≤ line + len := by
            have hsave := hat.behind (hat.saveptr_ne hrun hscan)
            omega
          obtain ⟨r, calls, last, hloop, htranscript⟩ :=
            ih tok saveptr' { answer.2 with mem := m'' } run later (by omega) hnextAt
          simp only [hloop, Option.bind_some]
          refine ⟨_, _, _, rfl, entry, _, _, answer.2, hi, rfl, rfl, hcut, hreceives hne, hanswer, ?_⟩
          rw [tokens, hruns, if_neg hzero]
          exact htranscript.of_cuts (.of_mem hscan.frameIn hrestIn.1 hrestIn.2)

end Loop

/-! ## What callbacks preserve -/

section Data

variable {σ : Type} {options : List (OptionT σ)} {P : σ → Prop}

/-- No callback of the table destroys `P`. -/
def KeepsData (options : List (OptionT σ)) (P : σ → Prop) : Prop :=
  ∀ entry ∈ options, ∀ cb, entry.cb = some cb → ∀ optionName optionValue env,
    P env.data → P (cb optionName optionValue env).2.data

theorem findOption_data {option : Nat} {env env' : OptionEnv σ} {found : Option Nat}
    (h : findOption options option env = some (found, env')) : env'.data = env.data := by
  unfold findOption at h
  obtain ⟨r, _, h⟩ := Option.bind_eq_some_iff.mp h
  cases r with
  | none =>
    obtain ⟨_, rfl⟩ := Prod.mk.inj (Option.some.inj h)
    rfl
  | some i =>
    obtain ⟨_, rfl⟩ := Prod.mk.inj (Option.some.inj h)
    rfl

theorem parseLoop_data (hkeeps : KeepsData options P) :
    ∀ {fuel option saveptr : Nat} {env env' : OptionEnv σ} {r : Int32} {calls : List (OptionCall σ)},
      parseLoop options fuel option saveptr env = some (r, calls, env') →
      P env.data → P env'.data := by
  intro fuel
  induction fuel with
  | zero =>
    intro option saveptr env env' r calls h _
    cases h
  | succ fuel ih =>
    intro option saveptr env env' r calls h hP
    unfold parseLoop at h
    by_cases hoption : option = 0
    · rw [if_pos hoption] at h
      cases h
      exact hP
    · rw [if_neg hoption] at h
      obtain ⟨⟨name, value, m⟩, _, h⟩ := Option.bind_eq_some_iff.mp h
      obtain ⟨⟨found, env₁⟩, hfind, h⟩ := Option.bind_eq_some_iff.mp h
      have hP₁ : P env₁.data := by
        rw [findOption_data hfind]
        exact hP
      cases found with
      | none =>
        cases h
        exact hP₁
      | some i =>
        cases hentry : options[i]? with
        | none =>
          simp only [hentry, Option.bind_none] at h
          cases h
          exact hP₁
        | some entry =>
          cases hcb : entry.cb with
          | none =>
            simp only [hentry, hcb, Option.bind_some] at h
            cases h
            exact hP₁
          | some cb =>
            have hP₂ := hkeeps entry (List.mem_of_getElem? hentry) cb hcb name value env₁ hP₁
            simp only [hentry, hcb, Option.bind_some] at h
            split at h
            · cases h
              exact hP₂
            · obtain ⟨⟨tok, saveptr', m'⟩, _, h⟩ := Option.bind_eq_some_iff.mp h
              obtain ⟨⟨r', calls', env₂⟩, hrest, h⟩ := Option.bind_eq_some_iff.mp h
              cases h
              exact ih hrest hP₂

/-- What every callback preserves, the parser preserves. -/
theorem parseCommandLine_data (hkeeps : KeepsData options P) {line : Nat}
    {env env' : OptionEnv σ} {r : Int32} {calls : List (OptionCall σ)}
    (h : parseCommandLine line options env = some (r, calls, env')) (hP : P env.data) :
    P env'.data := by
  obtain ⟨_, _, h⟩ := Option.bind_eq_some_iff.mp h
  exact parseLoop_data hkeeps h hP

end Data

/-! ## The parser -/

section Parser

variable {σ : Type} {entries : List (List UInt8 × OptionCb σ)}

/-- The result is one exactly when every token was known and accepted. -/
theorem Transcript.result_iff {line len : Nat} : ∀ {toks : List (List UInt8)}
    {env last : OptionEnv σ} {calls : List (OptionCall σ)} {r : Int32},
      Transcript entries line len toks env calls r last →
      (r = 1 ↔ (∀ token ∈ toks, entryNamed entries (nameOf token) ≠ none) ∧
        calls.length = toks.length ∧ ∀ call ∈ calls, call.result ≠ 0) := by
  intro toks
  induction toks with
  | nil =>
    rintro env last calls r ⟨rfl, rfl, -⟩
    simp
  | cons token rest ih =>
    intro env last calls r h
    unfold Transcript at h
    cases hentry : entryNamed entries (nameOf token) with
    | none =>
      rw [hentry] at h
      obtain ⟨rfl, rfl, -⟩ := h
      refine ⟨fun hr => absurd hr (by decide), fun hall => ?_⟩
      exact absurd hentry (hall.1 token List.mem_cons_self)
    | some i =>
      rw [hentry] at h
      obtain ⟨entry, call, later, next, -, rfl, -, -, -, -, h⟩ := h
      by_cases hzero : call.result = 0
      · rw [if_pos hzero] at h
        obtain ⟨rfl, rfl, -⟩ := h
        refine ⟨fun hr => absurd hr (by decide), fun hall => ?_⟩
        exact absurd hzero (hall.2.2 call List.mem_cons_self)
      · rw [if_neg hzero] at h
        rw [ih h]
        simp only [List.forall_mem_cons, List.length_cons, Nat.add_right_cancel_iff, hentry]
        exact ⟨fun ⟨hk, hl, ha⟩ => ⟨⟨by simp, hk⟩, hl, hzero, ha⟩,
          fun ⟨⟨_, hk⟩, hl, _, ha⟩ => ⟨hk, hl, ha⟩⟩

/-- `parse_command_line` ends on every line, and calls the callbacks of its tokens. -/
theorem parseCommandLine_transcript (env : OptionEnv σ) (line : Nat) (text : List UInt8)
    (hline : line ≠ 0) (htext : CString env.mem line text)
    (hspace : line + text.length < addressSpace)
    (hnames : ∀ entry ∈ entries, ProperName entry.1)
    (hkeeps : KeepsLine entries line text.length) :
    ∃ r calls last, parseCommandLine line (optionTable entries) env = some (r, calls, last) ∧
      Transcript entries line text.length (tokens text) env calls r last ∧
      (r = 1 ↔ (∀ token ∈ tokens text, entryNamed entries (nameOf token) ≠ none) ∧
        calls.length = (tokens text).length ∧ ∀ call ∈ calls, call.result ≠ 0) := by
  have hp : (if line ≠ 0 then line else 0) = line := if_pos hline
  obtain ⟨tok, saveptr, m, hfirst, hcases⟩ :=
    strtokR_spec [space] hp (Or.inr ⟨hline, htext⟩) (by omega)
  rw [isDelim_singleton] at hcases
  have hloop : ∃ r calls last,
      parseLoop (optionTable entries) addressSpace tok saveptr { env with mem := m } =
        some (r, calls, last) ∧
      Transcript entries line text.length (tokens text) env calls r last := by
    rcases hcases with ⟨hruns, rfl, rfl⟩ | ⟨run, rest, hruns, hrun, hscan⟩
    · refine ⟨1, [], _, rfl, ?_⟩
      rw [tokens, hruns]
      exact ⟨rfl, rfl, CutsLine.refl _ _ _⟩
    · have hpos : 0 < run.length := List.length_pos_iff.mpr hrun.ne_nil
      have hlower := hscan.lower
      have hupper := hscan.upper
      have hrest : rest.length + 2 ≤ addressSpace := by
        rcases hscan.pending with ⟨_, rfl⟩ | ⟨hne, _⟩
        · rw [List.length_nil]
          decide
        · obtain ⟨_, hend⟩ := hscan.behind hne
          omega
      have hat : AtToken m line text.length tok saveptr run rest :=
        { option_ne := hscan.tok_ne
          isRun := hrun
          string := hscan.token
          pending := hscan.pending
          lower := hlower
          upper := hupper
          behind := hscan.behind }
      obtain ⟨r, calls, last, hloop, htranscript⟩ :=
        parseLoop_spec hnames hkeeps hspace addressSpace tok saveptr { env with mem := m } run rest
          hrest hat
      rw [tokens, hruns]
      exact ⟨r, calls, last, hloop,
        htranscript.of_cuts (.of_mem hscan.frameIn (Nat.le_refl _) (Nat.le_refl _))⟩
  obtain ⟨r, calls, last, hrun, htranscript⟩ := hloop
  refine ⟨r, calls, last, ?_, htranscript, htranscript.result_iff⟩
  simp only [parseCommandLine, hfirst, Option.bind_eq_bind, Option.bind_some, hrun]

end Parser

/-- A table with the options `a` and `b`, both accepted and noted. -/
def acceptingTable : List (List UInt8 × OptionCb (List UInt8)) :=
  [([0x61], fun _ _ env => (1, { env with data := env.data ++ [0x61] })),
    ([0x62], fun _ _ env => (1, { env with data := env.data ++ [0x62] }))]

/-- The line ` a==1=2  b` at address 0x1000. -/
def acceptedLine : List UInt8 :=
  [0x20, 0x61, 0x3D, 0x3D, 0x31, 0x3D, 0x32, 0x20, 0x20, 0x62]

theorem acceptedLine_transcript :
    ∃ r calls last, parseCommandLine 0x1000 (optionTable acceptingTable)
        ⟨Mem.ofParts [(0x1000, acceptedLine)], none, []⟩ = some (r, calls, last) ∧
      Transcript acceptingTable 0x1000 10 [[0x61, 0x3D, 0x3D, 0x31, 0x3D, 0x32], [0x62]]
        ⟨Mem.ofParts [(0x1000, acceptedLine)], none, []⟩ calls r last := by
  have htokens : tokens acceptedLine = [[0x61, 0x3D, 0x3D, 0x31, 0x3D, 0x32], [0x62]] := by
    decide
  have hnames : ∀ entry ∈ acceptingTable, ProperName entry.1 := by
    intro entry hentry
    rcases List.mem_cons.mp hentry with rfl | hentry
    · exact ⟨by decide, by decide, by decide⟩
    · obtain rfl := List.mem_singleton.mp hentry
      exact ⟨by decide, by decide, by decide⟩
  have hkeeps : KeepsLine acceptingTable 0x1000 acceptedLine.length := by
    intro entry hentry optionName optionValue env a _
    rcases List.mem_cons.mp hentry with rfl | hentry
    · rfl
    · obtain rfl := List.mem_singleton.mp hentry
      rfl
  obtain ⟨r, calls, last, hrun, htranscript, _⟩ := parseCommandLine_transcript
    ⟨Mem.ofParts [(0x1000, acceptedLine)], none, []⟩ 0x1000 acceptedLine (by decide)
    (by decide +kernel) (by decide) hnames hkeeps
  exact ⟨r, calls, last, hrun, htokens ▸ htranscript⟩

end HosBoot.Common

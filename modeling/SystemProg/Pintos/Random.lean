import SystemProg.Data.Words
import SystemProg.Pintos.Rtc
import SystemProg.Seq.Panic

/-!
# The random number generator and the kernel's options

Model of the RC4 generator (`lib/random.c:17-74`), of `atoi` (`lib/stdlib.c:7-42`) and of
`parse_options` (`threads/init.c:231-288`), for every build. The array `s` is a function of its 256
indices. An `int` of `atoi` is its 32 bits. `usage` powers the machine off, so that it does not
return, as a panic does not.

* `parseOptions_random`: after `parse_options` the generator is that of the clock, whatever the
  options say and whatever state it was in.
* `seed_reproducible_iff`: a seed on the command line makes the boots reproducible only where none
  of them gets past `parse_options`.

`Packed` says that a number holds the array `s` byte by byte: `packedInit` runs the key schedule on
numbers alone.
-/

namespace SystemProg.Pintos.Random

open Text SystemProg.Seq Data List Option
open Pintos.Rtc (rtcGetTime)

/-! ## The generator -/

/-- The state of the generator. -/
structure Generator where
  s : Byte → Byte
  i : Byte
  j : Byte
  inited : Bool

/-- `swap_byte(s + a, s + b)`. -/
def swapByte (s : Byte → Byte) (a b : Byte) : Byte → Byte :=
  fun k => if k = b then s a else if k = a then s b else s k

/-- `seedp[i]`. -/
def seedByte (seed : UInt32) (i : Nat) : Byte := UInt8.ofNat (seed.toNat / 256 ^ i)

/-- The body of the second loop of `random_init`. -/
def mix (seed : UInt32) (st : (Byte → Byte) × Byte) (i : Nat) : (Byte → Byte) × Byte :=
  let j := st.2 + (st.1 (UInt8.ofNat i) + seedByte seed (i % 4))
  (swapByte st.1 (UInt8.ofNat i) j, j)

/-- `random_init`. -/
def randomInit (seed : UInt32) : Generator :=
  ⟨((List.range 256).foldl (mix seed) (fun i => i, 0)).1, 0, 0, true⟩

/-- The body of the loop of `random_bytes`. -/
def randomByte (g : Generator) : Byte × Generator :=
  let i := g.i + 1
  let j := g.j + g.s i
  let s := swapByte g.s i j
  (s (s i + s j), { g with s := s, i := i, j := j })

/-- The loop of `random_bytes`. -/
def randomLoop : (size : Nat) → Generator → List Byte × Generator
  | 0, g => ([], g)
  | size + 1, g =>
    let (b, g) := randomByte g
    let (bs, g) := randomLoop size g
    (b :: bs, g)

/-- `random_bytes`. -/
def randomBytes (size : Nat) (g : Generator) : List Byte × Generator :=
  randomLoop size (if g.inited then g else randomInit 0)

/-- What a sequence of calls of `random_bytes` writes. -/
def stream : (sizes : List Nat) → Generator → List (List Byte)
  | [], _ => []
  | size :: sizes, g =>
    let (bs, g) := randomBytes size g
    bs :: stream sizes g

/-! ## The options -/

/-- `atoi` of a string. -/
def atoi (s : List Byte) : UInt32 :=
  let s := s.dropWhile isspace
  let (negative, s) :=
    match s with
    | 43 :: s => (false, s)
    | 45 :: s => (true, s)
    | s => (false, s)
  let value := (s.takeWhile isdigit).foldl (fun value c => value * 10 - (c.toUInt32 - 48)) 0
  if negative then value else -value

/-- `enum shutdown_type`. -/
inductive ShutdownType
  | none
  | powerOff
  | reboot

/-- The macros that a build defines. -/
structure Build where
  filesys : Bool
  vm : Bool
  userprog : Bool

/-- What the options set. -/
structure Boot where
  how : ShutdownType
  formatFilesys : Bool
  filesysBdevName : Option (List Byte)
  scratchBdevName : Option (List Byte)
  swapBdevName : Option (List Byte)
  threadMlfqs : Bool
  userPageLimit : UInt32
  random : Generator

/-- `strtok_r(*argv, "=", &save_ptr)` and then `strtok_r(NULL, "", &save_ptr)`. -/
def tokens (arg : List Byte) : Option (List Byte) × Option (List Byte) :=
  let (name, buf, save) := strtokR (· == 61) (arg ++ [0]) 0
  let (value, buf', _) := strtokR (fun _ => false) buf save
  (name.map (strAt buf'), value.map (strAt buf'))

/-- `atoi(value)`, with the assertion that the pointer is not null. -/
def atoiOf : Option (List Byte) → Panic Boot UInt32
  | none => abort
  | some value => pure (atoi value)

/-- `usage`. -/
def usage : Panic Boot Unit := abort

/-- The body of the loop of `parse_options`. -/
def parseOption (B : Build) (arg : List Byte) : Panic Boot Unit :=
  match tokens arg with
  | (none, _) => abort
  | (some name, value) =>
    if name = str "-h" then usage
    else if name = str "-q" then modify fun b => { b with how := .powerOff }
    else if name = str "-r" then modify fun b => { b with how := .reboot }
    else if B.filesys ∧ name = str "-f" then modify fun b => { b with formatFilesys := true }
    else if B.filesys ∧ name = str "-filesys" then
      modify fun b => { b with filesysBdevName := value }
    else if B.filesys ∧ name = str "-scratch" then
      modify fun b => { b with scratchBdevName := value }
    else if (B.filesys ∧ B.vm) ∧ name = str "-swap" then
      modify fun b => { b with swapBdevName := value }
    else if name = str "-rs" then do
      let seed ← atoiOf value
      modify fun b => { b with random := randomInit seed }
    else if name = str "-mlfqs" then modify fun b => { b with threadMlfqs := true }
    else if B.userprog ∧ name = str "-ul" then do
      let limit ← atoiOf value
      modify fun b => { b with userPageLimit := limit }
    else abort

/-- `**argv == '-'`. -/
def isOption (arg : List Byte) : Bool := arg.head? == some 45

/-- The loop of `parse_options`. -/
def parseLoop (B : Build) : (argv : List (List Byte)) → Panic Boot (List (List Byte))
  | [] => pure []
  | arg :: argv =>
    if isOption arg then do
      parseOption B arg
      parseLoop B argv
    else pure (arg :: argv)

/-- `parse_options`. The clock is what the reads of the CMOS return. -/
def parseOptions (B : Build) (cmos : Nat → Nat → UInt8) (turns : Nat) (argv : List (List Byte)) :
    Panic Boot (List (List Byte)) := do
  let argv ← parseLoop B argv
  match rtcGetTime cmos turns with
  | none => abort
  | some time => do
    modify fun b => { b with random := randomInit (UInt32.ofNat time) }
    pure argv

/-! ## Which command lines are accepted -/

/-- What is before the first `=`. -/
def optionName (arg : List Byte) : List Byte := arg.takeWhile (· != 61)

/-- What follows the first `=`, if it is not empty. -/
def optionValue (arg : List Byte) : Option (List Byte) :=
  let rest := (arg.dropWhile (· != 61)).tail
  if rest = [] then none else some rest

/-- The options of a command line. -/
def options (argv : List (List Byte)) : List (List Byte) := argv.takeWhile isOption

/-- The options that take no number. -/
def flags (filesys vm : Bool) : List (List Byte) :=
  [str "-q", str "-r", str "-mlfqs"] ++
    (if filesys then [str "-f", str "-filesys", str "-scratch"] else []) ++
    if filesys && vm then [str "-swap"] else []

/-- An option of that name and value, from which the parser goes on. -/
def Build.Accepts (B : Build) (name : List Byte) (value : Option (List Byte)) : Prop :=
  name ∈ flags B.filesys B.vm ∨
    (name = str "-rs" ∨ B.userprog ∧ name = str "-ul") ∧ value ≠ none

/-- An argument that is such an option. -/
def Build.Accepted (B : Build) (arg : List Byte) : Prop :=
  B.Accepts (optionName arg) (optionValue arg)

variable {B : Build} {arg : List Byte} {argv : List (List Byte)} {b b' : Boot}

theorem tokens_eq (h0 : 0 ∉ arg) (h : isOption arg = true) :
    tokens arg = (some (optionName arg), optionValue arg) := by
  obtain ⟨t, rfl⟩ : ∃ t, arg = 45 :: t := by
    cases arg with
    | nil => cases h
    | cons c t => exact ⟨t, by simpa [isOption] using h⟩
  have hrest : Rest ((45 :: t) ++ [0]) 0 (45 :: t) := ⟨h0, [], rfl⟩
  obtain ⟨off, buf, save, htok, -, -, hname, hoff, hsave⟩ :=
    strtokR_some hrest (show (45 :: t).dropWhile (· == 61) = 45 :: t from rfl)
  rw [tokens, htok]
  dsimp only
  rw [optionValue]
  change Rest buf save ((45 :: t).dropWhile (· != 61)).tail at hsave
  cases hv : ((45 :: t).dropWhile (· != 61)).tail with
  | nil =>
    rw [hv] at hsave
    rw [strtokR_none hsave rfl]
    exact congrArg (fun n => (some n, none)) hname
  | cons c v =>
    rw [hv] at hsave
    obtain ⟨off', buf', save', htok', htake, -, hvalue, -⟩ :=
      strtokR_some hsave (show (c :: v).dropWhile (fun _ => false) = c :: v from rfl)
    rw [htok']
    -- the name ends before the value begins, and stays
    have hname' : strAt buf' off = strAt buf off :=
      strAt_congr htake (by rw [hname]; omega)
    have hvalue' : strAt buf' off' = c :: v := by
      rw [hvalue]
      simp
    rw [if_neg (by simp)]
    exact congrArg₂ (fun n v => (some n, some v)) (hname'.trans hname) hvalue'

/-- What an option does to the generator. -/
def seedWith (g : Generator) (arg : List Byte) : Generator :=
  if optionName arg = str "-rs" then randomInit (atoi ((optionValue arg).getD [])) else g

/-- The result of an option of that name and value: whether it returns, and the generator then. -/
def Outcome (B : Build) (name : List Byte) (value : Option (List Byte)) (b : Boot)
    (r : Option (Unit × Boot)) : Prop :=
  (r.isSome ↔ B.Accepts name value) ∧
    ∀ c, r = some ((), c) →
      c.random = if name = str "-rs" then randomInit (atoi (value.getD [])) else b.random

theorem not_mem_flags : ∀ filesys vm, str "-h" ∉ flags filesys vm ∧ str "-rs" ∉ flags filesys vm ∧
    str "-ul" ∉ flags filesys vm := by decide

section Outcome

variable {name : List Byte} {value : Option (List Byte)}

theorem outcome_abort (h : ¬B.Accepts name value) : Outcome B name value b none :=
  ⟨iff_of_false (by simp) h, nofun⟩

theorem outcome_ite {c : Prop} [Decidable c] {p q : Panic Boot Unit}
    (hp : c → Outcome B name value b (p b)) (hq : ¬c → Outcome B name value b (q b)) :
    Outcome B name value b ((if c then p else q) b) := by
  split
  · exact hp ‹_›
  · exact hq ‹_›

theorem outcome_flag (h : name ∈ flags B.filesys B.vm) {f : Boot → Boot}
    (hf : (f b).random = b.random) : Outcome B name value b ((modify f : Panic Boot Unit) b) := by
  refine ⟨iff_of_true rfl (.inl h), fun c hc => ?_⟩
  cases hc
  rw [if_neg fun he => (not_mem_flags _ _).2.1 (he ▸ h)]
  exact hf

theorem outcome_atoi {f : UInt32 → Boot → Boot}
    (hname : name = str "-rs" ∨ B.userprog ∧ name = str "-ul")
    (hf : ∀ v b, (f (atoi v) b).random =
      if name = str "-rs" then randomInit (atoi v) else b.random) :
    Outcome B name value b ((do
      let n ← atoiOf value
      modify (f n) : Panic Boot Unit) b) := by
  have hflags : name ∉ flags B.filesys B.vm := by
    rcases hname with rfl | ⟨-, rfl⟩
    · exact (not_mem_flags _ _).2.1
    · exact (not_mem_flags _ _).2.2
  cases value with
  | none => exact outcome_abort fun h => (h.resolve_left hflags).2 rfl
  | some v =>
    refine ⟨iff_of_true rfl (.inr ⟨hname, by simp⟩), fun c hc => ?_⟩
    cases hc
    exact hf v b

end Outcome

/-- The parser goes on from the accepted options and from no other, and of these `-rs` alone sets
the generator. -/
theorem parseOption_outcome (h0 : 0 ∉ arg) (h : isOption arg = true) :
    Outcome B (optionName arg) (optionValue arg) b (parseOption B arg b) := by
  rw [parseOption, tokens_eq h0 h]
  dsimp only
  generalize optionName arg = name
  refine outcome_ite (fun h => outcome_abort ?_) fun h1 =>
    outcome_ite (fun h => outcome_flag (by simp [flags, h]) rfl) fun h2 =>
    outcome_ite (fun h => outcome_flag (by simp [flags, h]) rfl) fun h3 =>
    outcome_ite (fun h => outcome_flag (by simp [flags, h]) rfl) fun h4 =>
    outcome_ite (fun h => outcome_flag (by simp [flags, h]) rfl) fun h5 =>
    outcome_ite (fun h => outcome_flag (by simp [flags, h]) rfl) fun h6 =>
    outcome_ite (fun h => outcome_flag (by simp [flags, h]) rfl) fun h7 =>
    outcome_ite (fun h => outcome_atoi (.inl h) fun v b => (if_pos h).symm) fun h8 =>
    outcome_ite (fun h => outcome_flag (by simp [flags, h]) rfl) fun h9 =>
    outcome_ite (fun h => outcome_atoi (.inr h) fun v b => (if_neg h8).symm) fun h10 =>
    outcome_abort ?_
  · obtain ⟨hflags, -, -⟩ := not_mem_flags B.filesys B.vm
    have hne : str "-h" ≠ str "-rs" ∧ str "-h" ≠ str "-ul" := by decide
    rw [h]
    rintro (hh | ⟨hh | hh, -⟩)
    · exact hflags hh
    · exact hne.1 hh
    · exact hne.2 hh.2
  · rintro (hh | hh)
    · cases hf : B.filesys <;> cases hv : B.vm <;> simp_all [flags]
    · exact not_or.mpr ⟨h8, h10⟩ hh.1

/-- **The loop over the options** ends with the first argument that is not one, unless it comes upon
an option that is not accepted. -/
theorem parseLoop_isSome (h0 : ∀ arg ∈ argv, 0 ∉ arg) :
    (parseLoop B argv b).isSome ↔ ∀ arg ∈ options argv, B.Accepted arg := by
  induction argv generalizing b with
  | nil => exact iff_of_true rfl (by simp [options])
  | cons arg argv ih =>
    rw [parseLoop, options, takeWhile_cons]
    cases harg : isOption arg with
    | false => exact iff_of_true rfl (by simp)
    | true =>
      have hone := (parseOption_outcome (B := B) (b := b) (h0 arg mem_cons_self) harg).1
      have htail := fun c => ih (b := c) fun arg h => h0 arg (mem_cons_of_mem _ h)
      simp only [if_true, forall_mem_cons]
      rw [Build.Accepted, ← hone]
      rcases hp : parseOption B arg b with _ | ⟨u, c⟩
      · rw [bind_eq_none hp]
        simp
      · rw [bind_eq hp, htail]
        simp [options]

/-- It leaves the generator that the last `-rs` gave. -/
theorem parseLoop_random (h0 : ∀ arg ∈ argv, 0 ∉ arg) {rest : List (List Byte)}
    (h : parseLoop B argv b = some (rest, b')) :
    b'.random = (options argv).foldl seedWith b.random := by
  induction argv generalizing b with
  | nil =>
    cases h
    rfl
  | cons arg argv ih =>
    rw [parseLoop] at h
    rw [options, takeWhile_cons]
    cases harg : isOption arg with
    | false =>
      rw [harg] at h
      cases h
      rfl
    | true =>
      rw [harg, if_pos rfl] at h
      obtain ⟨_, c, hone, htail⟩ := of_bind_eq h
      have hc := (parseOption_outcome (h0 arg mem_cons_self) harg).2 c hone
      rw [if_pos rfl, foldl_cons, seedWith, ← hc]
      exact ih (fun arg h => h0 arg (mem_cons_of_mem _ h)) htail

/-- **The clock has the last word.** -/
theorem parseOptions_random {cmos : Nat → Nat → UInt8} {turns : Nat} {rest : List (List Byte)}
    (h : parseOptions B cmos turns argv b = some (rest, b')) :
    ∃ time, rtcGetTime cmos turns = some time ∧ b'.random = randomInit (UInt32.ofNat time) := by
  obtain ⟨argv', b1, -, h⟩ := of_bind_eq h
  cases ht : rtcGetTime cmos turns with
  | none =>
    simp only [ht] at h
    cases h
  | some time =>
    simp only [ht] at h
    exact ⟨time, rfl, by cases h; rfl⟩

/-- With a clock that can be read, `parse_options` returns. -/
theorem parseOptions_returns {cmos : Nat → Nat → UInt8} {turns time : Nat}
    (hargs : ∀ arg ∈ argv, 0 ∉ arg) (hok : ∀ arg ∈ options argv, B.Accepted arg)
    (ht : rtcGetTime cmos turns = some time) :
    ∃ rest b', parseOptions B cmos turns argv b = some (rest, b') := by
  obtain ⟨⟨argv', b1⟩, hloop⟩ := isSome_iff_exists.mp ((parseLoop_isSome hargs).mpr hok)
  refine ⟨argv', { b1 with random := randomInit (UInt32.ofNat time) }, ?_⟩
  rw [parseOptions, bind_eq hloop]
  simp only [ht]
  rfl

/-! ## The key schedule on numbers -/

/-- The number `n` holds the array `s`. -/
def Packed (n : Nat) (s : Byte → Byte) : Prop := ∀ k : Byte, byteAt n k.toNat = (s k).toNat

/-- `swap_byte`. -/
def packedSwap (n a b : Nat) : Nat := setByteAt (setByteAt n a (byteAt n b)) b (byteAt n a)

theorem Packed.swap {n : Nat} {s : Byte → Byte} (h : Packed n s) (a b : Byte) :
    Packed (packedSwap n a.toNat b.toNat) (swapByte s a b) := by
  intro k
  rw [packedSwap, byteAt_setByteAt (byteAt_lt _ _), byteAt_setByteAt (byteAt_lt _ _), h a, h b, h k,
    swapByte]
  simp only [UInt8.toNat_inj]
  split
  · rfl
  · split <;> rfl

/-- `mix`. -/
def packedMix (seed : Nat) (st : Nat × Nat) (i : Nat) : Nat × Nat :=
  let j := (st.2 + (byteAt st.1 i + seed / 256 ^ (i % 4) % 256)) % 256
  (packedSwap st.1 i j, j)

/-- The array that holds each index. -/
def packedId : Nat := (List.range 256).foldr (fun i n => i + 256 * n) 0

/-- The array of `random_init`. -/
def packedInit (seed : Nat) : Nat := ((List.range 256).foldl (packedMix seed) (packedId, 0)).1

theorem packed_id : Packed packedId fun i => i := by
  have h : ∀ k < 256, byteAt packedId k = k := by decide +kernel
  intro k
  exact h _ k.toNat_lt

theorem packed_mix (seed : UInt32) {n j : Nat} {s : Byte → Byte} {c : Byte} {i : Nat} (hi : i < 256)
    (h : Packed n s ∧ j = c.toNat) :
    Packed (packedMix seed.toNat (n, j) i).1 (mix seed (s, c) i).1 ∧
      (packedMix seed.toNat (n, j) i).2 = (mix seed (s, c) i).2.toNat := by
  obtain ⟨hs, rfl⟩ := h
  have hi' : (UInt8.ofNat i).toNat = i := by simpa using Nat.mod_eq_of_lt hi
  have hsi := hs (UInt8.ofNat i)
  rw [hi'] at hsi
  have hj : (packedMix seed.toNat (n, c.toNat) i).2 = (mix seed (s, c) i).2.toNat := by
    simp only [packedMix, mix, seedByte, UInt8.toNat_add, UInt8.toNat_ofNat', hsi]
    omega
  refine ⟨?_, hj⟩
  have hswap := hs.swap (UInt8.ofNat i) (mix seed (s, c) i).2
  rwa [hi', ← hj] at hswap

/-- The loop of `random_init` over some of the indices. -/
theorem packed_foldl (seed : UInt32) {l : List Nat} (hl : ∀ i ∈ l, i < 256) {st : Nat × Nat}
    {st' : (Byte → Byte) × Byte} (h : Packed st.1 st'.1 ∧ st.2 = st'.2.toNat) :
    Packed (l.foldl (packedMix seed.toNat) st).1 (l.foldl (mix seed) st').1 := by
  induction l generalizing st st' with
  | nil => exact h.1
  | cons i l ih =>
    obtain ⟨hi, hl⟩ := forall_mem_cons.mp hl
    exact ih hl (packed_mix seed hi h)

theorem packed_init (seed : UInt32) : Packed (packedInit seed.toNat) (randomInit seed).s :=
  packed_foldl seed (fun _ => mem_range.mp) ⟨packed_id, rfl⟩

/-- The first byte that is drawn from an array. -/
def packedFirst (n : Nat) : Nat :=
  let j := byteAt n 1
  let n := packedSwap n 1 j
  byteAt n ((byteAt n 1 + byteAt n j) % 256)

theorem packed_first {g : Generator} {n : Nat} (h : Packed n g.s) (hi : g.i = 0) (hj : g.j = 0) :
    (randomByte g).1.toNat = packedFirst n := by
  have hsj : byteAt n 1 = (g.s 1).toNat := h 1
  have hswap := h.swap 1 (g.s 1)
  have h1 := hswap 1
  have h2 := hswap (g.s 1)
  have h3 := hswap (swapByte g.s 1 (g.s 1) 1 + swapByte g.s 1 (g.s 1) (g.s 1))
  rw [UInt8.toNat_add, ← h1, ← h2] at h3
  simp only [randomByte, hi, hj, UInt8.zero_add, packedFirst, hsj]
  exact h3.symm

theorem stream_one {g : Generator} (h : g.inited = true) : stream [1] g = [[(randomByte g).1]] := by
  simp only [stream, randomBytes, h, if_true, randomLoop]

theorem stream_ne {seed seed' : UInt32}
    (h : packedFirst (packedInit seed.toNat) ≠ packedFirst (packedInit seed'.toNat)) :
    stream [1] (randomInit seed) ≠ stream [1] (randomInit seed') := by
  intro heq
  rw [stream_one rfl, stream_one rfl] at heq
  have hbyte : (randomByte (randomInit seed)).1 = (randomByte (randomInit seed')).1 := by
    simpa only [List.cons.injEq, and_true] using heq
  apply h
  rw [← packed_first (packed_init seed) rfl rfl, ← packed_first (packed_init seed') rfl rfl, hbyte]

/-! ## Reproducible boots -/

/-- The boots of a command line that get past `parse_options`, from one state, whatever the clock,
draw the same bytes, and those of the generator of `seed`. -/
def Reproducible (B : Build) (argv : List (List Byte)) (seed : UInt32) (b : Boot) : Prop :=
  ∀ cmos₁ turns₁ rest₁ b₁ cmos₂ turns₂ rest₂ b₂,
    parseOptions B cmos₁ turns₁ argv b = some (rest₁, b₁) →
    parseOptions B cmos₂ turns₂ argv b = some (rest₂, b₂) →
    ∀ sizes, stream sizes b₁.random = stream sizes b₂.random ∧
      stream sizes b₁.random = stream sizes (randomInit seed)

/-- One of the options is `-rs=SEED`, and no other option is a `-rs`. -/
def SeededOnce (argv : List (List Byte)) (seed : List Byte) : Prop :=
  seed ≠ [] ∧ ∃ pre post, options argv = pre ++ (str "-rs=" ++ seed) :: post ∧
    ∀ arg ∈ pre ++ post, optionName arg ≠ str "-rs"

theorem foldl_seedWith {args : List (List Byte)} (h : ∀ arg ∈ args, optionName arg ≠ str "-rs")
    (g : Generator) : args.foldl seedWith g = g := by
  induction args with
  | nil => rfl
  | cons arg args ih =>
    obtain ⟨harg, hargs⟩ := forall_mem_cons.mp h
    rw [foldl_cons, seedWith, if_neg harg, ih hargs]

/-- The loop over the options does what `-rs=SEED` asks for. -/
theorem parseLoop_seeded {seed : List Byte} (h0 : ∀ arg ∈ argv, 0 ∉ arg)
    (hseed : SeededOnce argv seed) {rest : List (List Byte)}
    (h : parseLoop B argv b = some (rest, b')) : b'.random = randomInit (atoi seed) := by
  obtain ⟨hne, pre, post, hopts, hother⟩ := hseed
  have hname : optionName (str "-rs=" ++ seed) = str "-rs" := rfl
  have hvalue : optionValue (str "-rs=" ++ seed) = some seed := if_neg hne
  rw [parseLoop_random h0 h, hopts, foldl_append, foldl_cons,
    foldl_seedWith fun arg h => hother arg (mem_append_right _ h), seedWith, if_pos hname, hvalue]
  rfl

/-- Two clocks: January and February 1970. -/
def january : Rtc.DateTime :=
  Rtc.midnight1970 1 1 (by decide) (by decide) (by decide) (by decide)

/-- The other clock. -/
def february : Rtc.DateTime :=
  Rtc.midnight1970 2 1 (by decide) (by decide) (by decide) (by decide)

theorem rtcGetTime_january : rtcGetTime (fun _ => january.cmos) 1 = some 2678400 := by
  decide +kernel

theorem rtcGetTime_february : rtcGetTime (fun _ => february.cmos) 1 = some 5097600 := by
  decide +kernel

theorem stream_january_ne_february :
    stream [1] (randomInit 2678400) ≠ stream [1] (randomInit 5097600) :=
  stream_ne (by decide +kernel)

/-- Where the options are accepted, a boot in January and one in February draw different bytes. -/
theorem boots_differ (h0 : ∀ arg ∈ argv, 0 ∉ arg) (hok : ∀ arg ∈ options argv, B.Accepted arg) :
    ∃ rest₁ b₁ rest₂ b₂,
      parseOptions B (fun _ => january.cmos) 1 argv b = some (rest₁, b₁) ∧
      parseOptions B (fun _ => february.cmos) 1 argv b = some (rest₂, b₂) ∧
      stream [1] b₁.random ≠ stream [1] b₂.random := by
  obtain ⟨rest₁, b₁, h₁⟩ := parseOptions_returns (b := b) h0 hok rtcGetTime_january
  obtain ⟨rest₂, b₂, h₂⟩ := parseOptions_returns (b := b) h0 hok rtcGetTime_february
  refine ⟨rest₁, b₁, rest₂, b₂, h₁, h₂, ?_⟩
  obtain ⟨time₁, ht₁, hr₁⟩ := parseOptions_random h₁
  obtain ⟨time₂, ht₂, hr₂⟩ := parseOptions_random h₂
  obtain rfl := some.inj (rtcGetTime_january.symm.trans ht₁)
  obtain rfl := some.inj (rtcGetTime_february.symm.trans ht₂)
  rw [hr₁, hr₂]
  exact stream_january_ne_february

/-- **A seed on the command line does not make the boots reproducible**, unless there is no boot
past `parse_options` at all: some option is `-h`, unknown, or a `-ul` without a number. The loop
over the options does seed the generator. -/
theorem seed_reproducible_iff (b : Boot) {seed : List Byte} (h0 : ∀ arg ∈ argv, 0 ∉ arg)
    (hseed : SeededOnce argv seed) :
    (∀ rest b', parseLoop B argv b = some (rest, b') → b'.random = randomInit (atoi seed)) ∧
      (Reproducible B argv (atoi seed) b ↔ ∃ arg ∈ options argv, ¬B.Accepted arg) := by
  refine ⟨fun _ _ h => parseLoop_seeded h0 hseed h, ⟨fun h => ?_, ?_⟩⟩
  · by_contra hno
    have hok : ∀ arg ∈ options argv, B.Accepted arg := by
      intro arg harg
      by_contra hbad
      exact hno ⟨arg, harg, hbad⟩
    obtain ⟨rest₁, b₁, rest₂, b₂, h₁, h₂, hne⟩ := boots_differ (b := b) h0 hok
    exact hne (h _ _ _ _ _ _ _ _ h₁ h₂ [1]).1
  · rintro ⟨arg, harg, hno⟩ cmos₁ turns₁ rest₁ b₁ _ _ _ _ h₁ -
    obtain ⟨argv', b1, hloop, -⟩ := of_bind_eq h₁
    have hsome : (parseLoop B argv b).isSome := by rw [hloop]; rfl
    exact absurd ((parseLoop_isSome h0).mp hsome arg harg) hno

/-- `DEFINES` of `userprog/Make.vars`. -/
def userprogBuild : Build := ⟨true, false, true⟩

/-- The state before the options are read. -/
def initialBoot : Boot :=
  ⟨.none, false, none, none, none, false, 0xffffffff, ⟨fun _ => 0, 0, 0, false⟩⟩

theorem seed_not_reproducible_seven :
    ¬Reproducible userprogBuild [str "-q", str "-rs=7", str "run"] (atoi (str "7"))
      initialBoot := by
  have hseed : SeededOnce [str "-q", str "-rs=7", str "run"] (str "7") :=
    ⟨by decide, [str "-q"], [], by decide, by decide⟩
  intro h
  obtain ⟨arg, harg, hno⟩ := (seed_reproducible_iff initialBoot (by decide) hseed).2.mp h
  have hopts : options [str "-q", str "-rs=7", str "run"] = [str "-q", str "-rs=7"] := by decide
  rw [hopts, mem_cons, mem_singleton] at harg
  rcases harg with rfl | rfl
  · exact hno (.inl (by decide))
  · exact hno (.inr ⟨.inl (by decide), by decide⟩)

theorem seed_overridden :
    ∃ rest₁ b₁ rest₂ b₂,
      parseOptions userprogBuild (fun _ => january.cmos) 1 [str "-rs=7"] initialBoot =
        some (rest₁, b₁) ∧
      parseOptions userprogBuild (fun _ => february.cmos) 1 [str "-rs=7"] initialBoot =
        some (rest₂, b₂) ∧
      stream [1] b₁.random ≠ stream [1] b₂.random := by
  have hopts : options [str "-rs=7"] = [str "-rs=7"] := by decide
  refine boots_differ (by decide) ?_
  rw [hopts, forall_mem_singleton]
  exact .inr ⟨.inl (by decide), by decide⟩

end SystemProg.Pintos.Random

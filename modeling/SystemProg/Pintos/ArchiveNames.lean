import SystemProg.Pintos.Ustar

/-!
# Names in archives

`strip_antisocial_prefixes` of `lib/ustar.c` as the code runs it, with `memcmp`, `strcmp` and
`strchr` of `lib/string.c`. A pointer is the list of the bytes from it on; a read behind the end of
the memory, a null pointer that is used and a loop that does not end are `none`. `Ustar` has the
same function on names, `stripAntisocial`.

* `stripAntisocialPrefixes_eq` — on a string the code ends, with that name.
* `Confined` — what is safe to extract.
* `archive_names_confined` — a stripped name is confined, and so is every name that
  `ustar_parse_header` accepts.
-/

namespace SystemProg.Pintos

open Text List Option

/-! ## The functions on memory -/

/-- `memcmp`. -/
def memcmp : (size : Nat) → (a b : List Byte) → Option Int
  | 0, _, _ => some 0
  | size + 1, x :: a, y :: b =>
    if x ≠ y then some (if y < x then 1 else -1) else memcmp size a b
  | _, _, _ => none

/-- `strcmp`. -/
def strcmp : (a b : List Byte) → Option Int
  | x :: a, y :: b =>
    if x ≠ 0 ∧ x = y then strcmp a b else some (if x < y then -1 else if y < x then 1 else 0)
  | _, _ => none

/-- `strchr`; what it returns is `none` for a null pointer. -/
def strchr (c : Byte) : (string : List Byte) → Option (Option (List Byte))
  | [] => none
  | b :: string =>
    if b = c then some (some (b :: string)) else if b = 0 then some none else strchr c string

/-- A string literal. -/
def literal (s : String) : List Byte := str s ++ [0]

/-- The condition of the loop of `strip_antisocial_prefixes`. -/
def hasAntisocialPrefix (fileName : List Byte) : Option Bool := do
  if (← fileName.head?) = 47 then return true
  if (← memcmp 2 fileName (literal "./")) = 0 then return true
  return decide ((← memcmp 3 fileName (literal "../")) = 0)

/-- The loop, for a number of turns. -/
def stripLoop : (turns : Nat) → List Byte → Option (List Byte)
  | 0, _ => none
  | turns + 1, fileName => do
    if ← hasAntisocialPrefix fileName then
      let slash ← (← strchr 47 fileName)
      stripLoop turns slash.tail
    else return fileName

/-- `strip_antisocial_prefixes`. -/
def stripAntisocialPrefixes (turns : Nat) (fileName : List Byte) : Option (List Byte) := do
  let fileName ← stripLoop turns fileName
  if (← fileName.head?) = 0 then return literal "."
  if (← strcmp fileName (literal "..")) = 0 then return literal "."
  return fileName

/-! ## On strings -/

section Strings

variable {n m rest : List Byte} {turns : Nat}

theorem memcmp_string (n rest : List Byte) (hm : 0 ∉ m) :
    ∃ v, memcmp m.length (n ++ 0 :: rest) (m ++ [0]) = some v ∧
      (v = 0 ↔ m.isPrefixOf n = true) := by
  induction m generalizing n with
  | nil => exact ⟨0, rfl, by simp⟩
  | cons y m ih =>
    have hy : (0 : Byte) ≠ y := fun he => hm (he ▸ mem_cons_self)
    cases n with
    | nil =>
      refine ⟨_, if_pos hy, iff_of_false ?_ (by simp)⟩
      split <;> decide
    | cons x n =>
      by_cases hxy : x = y
      · obtain ⟨v, hv, hiff⟩ := ih n fun h => hm (mem_cons_of_mem _ h)
        refine ⟨v, (if_neg (not_not.mpr hxy)).trans hv, ?_⟩
        rw [hiff, hxy, isPrefixOf_cons_cons_self]
      · refine ⟨_, if_pos hxy, iff_of_false ?_ ?_⟩
        · split <;> decide
        · rw [isPrefixOf_cons_cons, Bool.and_eq_true, beq_iff_eq]
          exact fun h => hxy h.1.symm

theorem strcmp_string (rest : List Byte) (hn : 0 ∉ n) (hm : 0 ∉ m) :
    ∃ v, strcmp (n ++ 0 :: rest) (m ++ [0]) = some v ∧ (v = 0 ↔ n = m) := by
  induction n generalizing m with
  | nil =>
    cases m with
    | nil => exact ⟨0, rfl, by simp⟩
    | cons y m =>
      have hy : (0 : Byte) < y := UInt8.pos_iff_ne_zero.mpr fun he => hm (he ▸ mem_cons_self)
      refine ⟨-1, ?_, iff_of_false (by decide) (by simp)⟩
      exact (if_neg (by simp)).trans (congrArg some (if_pos hy))
  | cons x n ih =>
    have hx : x ≠ 0 := fun he => hn (he ▸ mem_cons_self)
    cases m with
    | nil =>
      have hx' : (0 : Byte) < x := UInt8.pos_iff_ne_zero.mpr hx
      refine ⟨1, ?_, iff_of_false (by decide) (by simp)⟩
      refine (if_neg fun h => hx h.2).trans (congrArg some ?_)
      rw [if_neg (UInt8.lt_asymm hx'), if_pos hx']
    | cons y m =>
      by_cases hxy : x = y
      · obtain ⟨v, hv, hiff⟩ := ih (m := m) (fun h => hn (mem_cons_of_mem _ h))
          fun h => hm (mem_cons_of_mem _ h)
        refine ⟨v, (if_pos ⟨hx, hxy⟩).trans hv, ?_⟩
        rw [hiff, hxy, cons_inj_right]
      · refine ⟨_, if_neg fun h => hxy h.2, iff_of_false ?_ (by simp [hxy])⟩
        rcases UInt8.lt_or_lt_of_ne hxy with hlt | hlt
        · rw [if_pos hlt]
          decide
        · rw [if_neg (UInt8.lt_asymm hlt), if_pos hlt]
          decide

theorem strchr_string (hn : 0 ∉ n) (hslash : 47 ∈ n) :
    strchr 47 (n ++ 0 :: rest) = some (some (n.dropWhile (· ≠ 47) ++ 0 :: rest)) := by
  induction n with
  | nil => exact absurd hslash not_mem_nil
  | cons x n ih =>
    rw [cons_append, strchr]
    by_cases hx : x = 47
    · rw [if_pos hx, dropWhile_cons_of_neg (by simpa using hx)]
      rfl
    · have hx0 : x ≠ 0 := fun he => hn (he ▸ mem_cons_self)
      rw [if_neg hx, if_neg hx0, dropWhile_cons_of_pos (by simpa using hx)]
      refine ih (fun h => hn (mem_cons_of_mem _ h)) ?_
      exact (mem_cons.mp hslash).resolve_left (Ne.symm hx)

theorem hasAntisocialPrefix_string (rest : List Byte) :
    hasAntisocialPrefix (n ++ 0 :: rest) = some (antisocial n) := by
  obtain ⟨v, hv, hdot⟩ := memcmp_string n rest (m := str "./") (by decide)
  obtain ⟨w, hw, hdots⟩ := memcmp_string n rest (m := str "../") (by decide)
  have hhead : ∃ b, (n ++ 0 :: rest).head? = some b ∧ (b = 47 ↔ (str "/").isPrefixOf n = true) := by
    cases n with
    | nil => exact ⟨0, rfl, by decide⟩
    | cons x n =>
      refine ⟨x, rfl, ?_⟩
      show _ ↔ ((47 : Byte) == x && List.isPrefixOf [] n) = true
      rw [isPrefixOf_nil_left, Bool.and_true, beq_iff_eq, eq_comm]
  obtain ⟨b, hb, hslash⟩ := hhead
  unfold hasAntisocialPrefix
  rw [hb, show memcmp 2 (n ++ 0 :: rest) (literal "./") = some v from hv,
    show memcmp 3 (n ++ 0 :: rest) (literal "../") = some w from hw]
  simp only [bind_eq_bind, bind_some, hslash, hdot, hdots, antisocial]
  cases (str "/").isPrefixOf n <;> cases (str "./").isPrefixOf n <;>
    cases (str "../").isPrefixOf n <;> rfl

/-- **The loop ends** at what `dropAntisocial` leaves. -/
theorem stripLoop_string (hn : 0 ∉ n) {fuel : Nat} (hfuel : n.length ≤ fuel)
    (hturns : n.length < turns) :
    stripLoop turns (n ++ 0 :: rest) = some (dropAntisocial fuel n ++ 0 :: rest) := by
  induction turns generalizing n fuel with
  | zero => omega
  | succ turns ih =>
    rw [stripLoop, hasAntisocialPrefix_string]
    cases hanti : antisocial n with
    | false =>
      rw [dropAntisocial_of_not hanti]
      rfl
    | true =>
      have hlt := length_afterSlash hanti
      obtain ⟨fuel, rfl⟩ : ∃ k, fuel = k + 1 := Nat.exists_eq_add_one_of_ne_zero (by omega)
      have hsuffix : afterSlash n <:+ n := (drop_suffix _ _).trans (dropWhile_suffix _)
      have htail : (n.dropWhile (· ≠ 47) ++ 0 :: rest).tail = afterSlash n ++ 0 :: rest := by
        rw [tail_append_of_ne_nil (dropWhile_ne_nil_of_antisocial hanti), afterSlash, drop_one]
      rw [dropAntisocial, if_pos hanti, ← ih (fun h => hn (hsuffix.subset h)) (by omega) (by omega),
        ← htail]
      simp only [bind_eq_bind, bind_some, if_true, strchr_string hn (slash_mem_of_antisocial hanti)]

/-- **`strip_antisocial_prefixes` ends**, and returns the end of the string or a literal. -/
theorem stripAntisocialPrefixes_eq (hn : 0 ∉ n) (rest : List Byte) (hturns : n.length < turns) :
    ∃ r, stripAntisocialPrefixes turns (n ++ 0 :: rest) = some r ∧ cstr r = stripAntisocial n ∧
      (r <:+ n ++ 0 :: rest ∨ r = literal ".") := by
  obtain ⟨m, hm⟩ : ∃ m, m = dropAntisocial n.length n := ⟨_, rfl⟩
  have hsuffix : m <:+ n := hm ▸ (dropAntisocial_spec (Nat.le_refl n.length)).2
  have hm0 : 0 ∉ m := fun h => hn (hsuffix.subset h)
  have hstrip : stripAntisocial n = if m = [] ∨ m = str ".." then str "." else m := by rw [hm]; rfl
  have hloop : stripLoop turns (n ++ 0 :: rest) = some (m ++ 0 :: rest) :=
    hm ▸ stripLoop_string hn le_rfl hturns
  obtain ⟨v, hv, hdots⟩ := strcmp_string rest hm0 (m := str "..") (by decide)
  have hcmp : strcmp (m ++ 0 :: rest) (literal "..") = some v := hv
  have hdot : cstr (literal ".") = str "." := cstr_append_nul (by decide) []
  rw [stripAntisocialPrefixes, hloop, hstrip]
  simp only [bind_eq_bind, bind_some]
  cases m with
  | nil => exact ⟨_, rfl, hdot, .inr rfl⟩
  | cons x m =>
    have hx : x ≠ 0 := fun he => hm0 (he ▸ mem_cons_self)
    simp only [cons_append, head?_cons, bind_some, if_neg hx, reduceCtorEq, false_or]
    rw [← cons_append, hcmp]
    by_cases hdd : x :: m = str ".."
    · refine ⟨literal ".", ?_, ?_, .inr rfl⟩
      · simp [hdots.mpr hdd]
      · rw [if_pos hdd, hdot]
    · refine ⟨x :: m ++ 0 :: rest, ?_, ?_, .inl ?_⟩
      · simp [mt hdots.mp hdd]
      · rw [if_neg hdd, cstr_append_nul hm0]
      · obtain ⟨a, ha⟩ := hsuffix
        exact ⟨a, by rw [← ha, append_assoc]⟩

end Strings

/-! ## What is safe to extract -/

/-- A name that stays below the directory it is extracted to, as far as its start goes. -/
structure Confined (name : List Byte) : Prop where
  nonempty : name ≠ []
  notDots : name ≠ str ".."
  slash : ¬ str "/" <+: name
  dot : ¬ str "./" <+: name
  dots : ¬ str "../" <+: name
  stable : stripAntisocial name = name

theorem confined_stripAntisocial (n : List Byte) : Confined (stripAntisocial n) := by
  have hidem := stripAntisocial_idem n
  obtain ⟨hnot, -⟩ := dropAntisocial_spec (Nat.le_refl n.length)
  have hstrip : stripAntisocial n = if dropAntisocial n.length n = [] ∨
    dropAntisocial n.length n = str ".." then str "." else dropAntisocial n.length n := rfl
  have hanti : antisocial (stripAntisocial n) = false := by
    rw [hstrip]
    split
    · decide
    · exact hnot
  rw [antisocial, Bool.or_eq_false_iff, Bool.or_eq_false_iff] at hanti
  obtain ⟨⟨hslash, hdot⟩, hdots⟩ := hanti
  have hprefix {p : List Byte} (hp : p.isPrefixOf (stripAntisocial n) = false) :
      ¬ p <+: stripAntisocial n := fun h => by
    rw [List.isPrefixOf_iff_prefix.mpr h] at hp
    cases hp
  refine ⟨?_, ?_, hprefix hslash, hprefix hdot, hprefix hdots, hidem⟩
  · rw [hstrip]
    split
    · decide
    · rename_i h
      exact fun he => h (.inl he)
  · rw [hstrip]
    split
    · decide
    · rename_i h
      exact fun he => h (.inr he)

theorem fileName_of_parse {header : List Byte} {e : UstarEntry}
    (hp : ustarParseHeader header = .ok (some e)) :
    e.fileName = stripAntisocial (cstr (fieldAt header 0 100)) := by
  rw [ustarParseHeader] at hp
  split at hp
  · cases hp
  split at hp
  · cases hp
  rw [parseEntry] at hp
  split at hp
  · split at hp
    · split at hp
      · cases hp
      · cases hp
        rfl
    · cases hp
  · cases hp
    rfl

/-- **Archive names are confined.** -/
theorem archive_names_confined (n : List Byte) (hn : 0 ∉ n) :
    (∀ rest turns, n.length < turns → ∃ r, stripAntisocialPrefixes turns (n ++ 0 :: rest) = some r ∧
      cstr r = stripAntisocial n ∧ (r <:+ n ++ 0 :: rest ∨ r = literal ".")) ∧
    (stripAntisocial n <:+ n ∨ stripAntisocial n = str ".") ∧ Confined (stripAntisocial n) ∧
    ∀ header e, ustarParseHeader header = .ok (some e) → Confined e.fileName := by
  refine ⟨fun rest turns => stripAntisocialPrefixes_eq hn rest, ?_, confined_stripAntisocial n,
    fun header e hp => ?_⟩
  · show (if dropAntisocial n.length n = [] ∨ _ then _ else _) <:+ n ∨ (if _ then _ else _) = _
    split
    · exact .inr rfl
    · exact .inl (dropAntisocial_spec (Nat.le_refl n.length)).2
  · rw [fileName_of_parse hp]
    exact confined_stripAntisocial _

/-- `.././/etc` is extracted as `etc`. -/
theorem archive_names_confined_etc : (0 : Byte) ∉ str ".././/etc" ∧
    stripAntisocial (str ".././/etc") = str "etc" ∧ Confined (str "etc") := by
  have hn : (0 : Byte) ∉ str ".././/etc" := by decide
  have hetc : stripAntisocial (str ".././/etc") = str "etc" := by decide
  exact ⟨hn, hetc, hetc ▸ (archive_names_confined _ hn).2.2.1⟩

end SystemProg.Pintos

import Mathlib.Algebra.GroupWithZero.Nat
import SystemProg.Shell.ParseSpec

/-!
# What a job line shows

`jobs_print_one` (`Project 1/yash/src/jobs.c:219-225`) ends a job line with `job->cmdline`, followed
by `" &"` for a background job. `parse_line` keeps `cmdline` free of the `&` for that purpose
(`parse.c:145-157`), by dropping every `&` and blank off the end of the raw text. `Job.shown` is the
text shown, and `Job.text` what `parse_line` has made of a line: its commands as strings.

* `size_text`: what an accepted line was parsed to has as many characters as the line has
  non-blank ones.
* `shown_parses_same_iff`: parsing the text shown gives back the same commands exactly if the line
  does not end in one `&` after another, with blanks between them.
-/

namespace SystemProg.Shell

open Text List

/-- The last two `%s` of `jobs_print_one`. -/
def Job.shown (job : Job) : List Byte := job.cmdline ++ if job.background then str " &" else []

/-! ## Jobs as text -/

/-- A command's strings: `argv` up to and including its NULL, and the redirections. -/
structure CmdText where
  argv : List (Option Token)
  infile : Option Token
  outfile : Option Token
  errfile : Option Token
  deriving DecidableEq

/-- A job's strings. -/
structure JobText where
  ncmds : Nat
  background : Bool
  cmds : List CmdText
  deriving DecidableEq

/-- The strings of a command. -/
def Cmd.text (buf : List Byte) (c : Cmd) : CmdText where
  argv := (c.argv.take (c.argc + 1)).map (Option.map (strAt buf))
  infile := c.infile.map (strAt buf)
  outfile := c.outfile.map (strAt buf)
  errfile := c.errfile.map (strAt buf)

/-- The strings of a job. -/
def Job.text (job : Job) : JobText where
  ncmds := job.ncmds
  background := job.background
  cmds := (job.cmds.take job.ncmds).map (Cmd.text job.buf)

/-- Those of a tree. -/
def CmdTree.text (c : CmdTree) : CmdText where
  argv := c.args.map some ++ [none]
  infile := c.target .read
  outfile := c.target .write
  errfile := c.target .writeErr

/-- Those of a line. -/
def LineTree.text (t : LineTree) : JobText where
  ncmds := t.cmds.length
  background := t.background
  cmds := t.cmds.map CmdTree.text

theorem Shows.text {job : Job} {t : LineTree} (h : Shows job t) : job.text = t.text := by
  have hcmds : (job.cmds.take job.ncmds).map (Cmd.text job.buf) = t.cmds.map CmdTree.text := by
    refine ext_getElem? fun i => ?_
    have hargv := congrArg (·[i]?) h.argv
    have hin := congrArg (·[i]?) h.infile
    have hout := congrArg (·[i]?) h.outfile
    have herr := congrArg (·[i]?) h.errfile
    simp only [getElem?_map] at hargv hin hout herr ⊢
    cases hc : (job.cmds.take job.ncmds)[i]? <;> cases ht : t.cmds[i]? <;>
      simp_all [Cmd.text, CmdTree.text]
  rw [Job.text, LineTree.text, hcmds, h.ncmds, h.background]

/-! ## Counting characters -/

/-- The characters of a redirection. -/
def redirSize (op : RedirOp) : Option Token → Nat
  | none => 0
  | some file => op.tok.length + file.length

/-- The characters of a command. -/
def CmdText.size (c : CmdText) : Nat :=
  (c.argv.map fun a => (a.getD []).length).sum +
    (redirSize .read c.infile + redirSize .write c.outfile + redirSize .writeErr c.errfile)

/-- The characters of a job. -/
def JobText.size (j : JobText) : Nat :=
  (j.cmds.map CmdText.size).sum + (j.ncmds - 1) + if j.background then 1 else 0

/-- A direction is redirected at most once, so that its slot has all there is of it. -/
theorem size_redirs {rs : List (RedirOp × Token)} (h : (rs.map Prod.fst).Nodup) :
    redirSize .read (rs.lookup .read) + redirSize .write (rs.lookup .write) +
      redirSize .writeErr (rs.lookup .writeErr) = (redirToks rs).flatten.length := by
  induction rs with
  | nil => rfl
  | cons r rs ih =>
    obtain ⟨op, file⟩ := r
    rw [map_cons, nodup_cons] at h
    have hnone : rs.lookup op = none := lookup_eq_none h.1
    have hlook : ∀ op', ((op, file) :: rs).lookup op' =
        if op' = op then some file else rs.lookup op' := fun op' => by
      rw [lookup_cons]
      by_cases he : op' = op
      · simp [he]
      · simp [he, beq_eq_false_iff_ne.mpr he]
    have hcons : (redirToks ((op, file) :: rs)).flatten.length =
        op.tok.length + file.length + (redirToks rs).flatten.length := by
      simp [redirToks, Nat.add_assoc]
    rw [hcons, ← ih h.2]
    cases op <;> simp [hlook, hnone, redirSize] <;> omega

theorem CmdTree.Wf.size_text {c : CmdTree} (h : c.Wf) : c.text.size = c.toks.flatten.length := by
  have hargs : (c.text.argv.map fun a => (a.getD []).length).sum = c.args.flatten.length := by
    simp [CmdTree.text, length_flatten, Function.comp_def]
  rw [CmdText.size, hargs, CmdTree.toks, flatten_append, length_append, ← size_redirs h.once]
  rfl

theorem Derives.size_text {T : List Token} {t : LineTree} (h : Derives T t) :
    t.text.size = T.flatten.length := by
  obtain ⟨hwf, rfl⟩ := h
  cases t with
  | simple c bg =>
    have hc : c.Wf := hwf
    cases bg <;> simp [JobText.size, LineTree.text, LineTree.cmds, LineTree.background,
      LineTree.toks, hc.size_text, str]
  | pipe l r =>
    simp [JobText.size, LineTree.text, LineTree.cmds, LineTree.background, LineTree.toks,
      hwf.1.size_text, hwf.2.size_text, str]
    omega

theorem parseLine_derives {line : List Byte} {job : Job} (h0 : 0 ∉ line)
    (h : parseLine (some line) = .ok job) :
    ∃ t, Derives (runs isBlank line) t ∧ job.text = t.text := by
  obtain ⟨-, -, -, -, hshow⟩ := parseLine_spec line (parseLine_ok h).1 h0
  obtain ⟨t, ht, hs, -⟩ := hshow job h
  exact ⟨t, ht, hs.text⟩

/-- **No character is lost in parsing**: the strings of an accepted line and its operators are its
non-blank characters. -/
theorem size_text {line : List Byte} {job : Job} (h0 : 0 ∉ line)
    (h : parseLine (some line) = .ok job) :
    job.text.size = (line.filter fun b => !isBlank b).length := by
  obtain ⟨t, ht, htext⟩ := parseLine_derives h0 h
  rw [htext, ht.size_text, flatten_runs]

/-! ## The trailer -/

/-- The line ends in an `&` and, after at least one blank, another. -/
def EndsInTwoAmps (line : List Byte) : Prop :=
  ∃ u b c, line = u ++ 38 :: b ++ 38 :: c ∧ b ≠ [] ∧ (∀ x ∈ b, isBlank x = true) ∧
    ∀ x ∈ c, isBlank x = true

theorem isTrailer_of_isBlank {b : Byte} (h : isBlank b = true) : isTrailer b = true := by
  unfold isBlank at h
  unfold isTrailer
  simp only [Bool.or_eq_true, beq_iff_eq] at h ⊢
  rcases h with h | h <;> simp [h]

theorem rdropWhile_append_of_all {α : Type} {q : α → Bool} {b : List α}
    (h : ∀ x ∈ b, q x = true) (l : List α) : (l ++ b).rdropWhile q = l.rdropWhile q := by
  rw [List.rdropWhile, reverse_append, dropWhile_append_of_pos fun x hx => h x (mem_reverse.mp hx)]
  rfl

/-- An `&` and the blanks around it are dropped with the trailer. -/
theorem rdropWhile_amp (u : List Byte) {b c : List Byte} (hb : ∀ x ∈ b, isBlank x = true)
    (hc : ∀ x ∈ c, isBlank x = true) :
    (u ++ b ++ 38 :: c).rdropWhile isTrailer = u.rdropWhile isTrailer := by
  rw [append_assoc]
  refine rdropWhile_append_of_all (fun x hx => ?_) u
  rw [mem_append, mem_cons] at hx
  rcases hx with hx | rfl | hx
  · exact isTrailer_of_isBlank (hb x hx)
  · decide
  · exact isTrailer_of_isBlank (hc x hx)

theorem runs_amp {c : List Byte} (hc : ∀ x ∈ c, isBlank x = true) :
    runs isBlank (38 :: c) = [str "&"] := by
  rw [show 38 :: c = str "&" ++ c from rfl, runs_append_seps hc]
  decide

theorem CmdTree.Wf.getLast?_toks {c : CmdTree} (h : c.Wf) : c.toks.getLast? ≠ some (str "&") := by
  intro hl
  rcases eq_nil_or_concat' c.redirs with hr | ⟨rs, r, hr⟩
  · rw [CmdTree.toks, hr] at hl
    have hmem : str "&" ∈ c.args := mem_of_getLast? (by simpa [redirToks] using hl)
    exact absurd (h.words _ hmem) (by decide)
  · have hword := h.targets r (by rw [hr]; simp)
    rw [CmdTree.toks, hr] at hl
    have : r.2 = str "&" := by simpa [redirToks] using hl
    rw [this] at hword
    exact absurd hword (by decide)

/-- A line is in the background exactly if its last token is `&`. -/
theorem Derives.background_iff {T : List Token} {t : LineTree} (h : Derives T t) :
    t.background = true ↔ T.getLast? = some (str "&") := by
  obtain ⟨hwf, rfl⟩ := h
  cases t with
  | simple c bg =>
    have hc : c.Wf := hwf
    cases bg with
    | false => simpa [LineTree.background, LineTree.toks] using hc.getLast?_toks
    | true => simp [LineTree.background, LineTree.toks]
  | pipe l r =>
    have hne : r.toks ≠ [] := by simp [CmdTree.toks, hwf.2.nonempty]
    have := hwf.2.getLast?_toks
    simp only [LineTree.background, LineTree.toks, Bool.false_eq_true, false_iff]
    rwa [getLast?_append_of_ne_nil _ (by simp), getLast?_cons_of_ne_nil hne]

/-! ## Parsing what is shown -/

section Accepted

variable {line : List Byte} {job : Job}

theorem shown_of_background (h : parseLine (some line) = .ok job) (hbg : job.background = true) :
    job.shown = line.rdropWhile isTrailer ++ str " &" := by
  rw [Job.shown, parseLine_cmdline h, if_pos hbg, if_pos hbg]

/-- An accepted line is in the background exactly if its last token is `&`. -/
theorem background_iff (h0 : 0 ∉ line) (h : parseLine (some line) = .ok job) :
    job.background = true ↔ (runs isBlank line).getLast? = some (str "&") := by
  obtain ⟨t, ht, htext⟩ := parseLine_derives h0 h
  rw [← ht.background_iff, show job.background = t.background from congrArg JobText.background
    htext]

/-- Two `&` at the end: the first one goes with the trailer, and is not shown. -/
theorem shown_short (h0 : 0 ∉ line) (h : parseLine (some line) = .ok job)
    (htwo : EndsInTwoAmps line) :
    (job.shown.filter fun b => !isBlank b).length < (line.filter fun b => !isBlank b).length := by
  obtain ⟨u, b, c, rfl, hne, hb, hc⟩ := htwo
  have hbg : job.background = true := by
    obtain ⟨b', s, rfl⟩ := (eq_nil_or_concat' b).resolve_left hne
    have hsplit : u ++ 38 :: (b' ++ [s]) ++ 38 :: c = (u ++ 38 :: b') ++ s :: 38 :: c := by simp
    rw [background_iff h0 h, hsplit, runs_append_sep (hb s (by simp)), runs_amp hc]
    simp
  have hu : ((u.rdropWhile isTrailer).filter fun b => !isBlank b).length ≤
      (u.filter fun b => !isBlank b).length :=
    ((List.rdropWhile_prefix isTrailer u).sublist.filter _).length_le
  have hamp : ((str " &").filter fun b => !isBlank b).length = 1 := by decide
  have h38 : (!isBlank 38) = true := by decide
  have htrim : (u ++ 38 :: b ++ 38 :: c).rdropWhile isTrailer = u.rdropWhile isTrailer := by
    rw [show u ++ 38 :: b = u ++ [38] ++ b by simp, rdropWhile_amp (u ++ [38]) hb hc,
      rdropWhile_concat_pos _ _ _ (by decide)]
  rw [shown_of_background h hbg, htrim]
  simp only [filter_append, length_append, filter_cons, h38, if_true, length_cons, hamp]
  omega

/-- Otherwise the trailer is the `&` and the blanks around it, and what is shown has the tokens of
the line. -/
theorem shown_of_single (h0 : 0 ∉ line) (h : parseLine (some line) = .ok job)
    (hbg : job.background = true) (hone : ¬ EndsInTwoAmps line) :
    runs isBlank job.shown = runs isBlank line ∧ job.shown.length ≤ line.length := by
  rw [shown_of_background h hbg]
  obtain ⟨t, ht, -⟩ := parseLine_derives h0 h
  obtain ⟨T, hT⟩ := getLast?_eq_some_iff.mp ((background_iff h0 h).mp hbg)
  obtain ⟨u, c, rfl, hc, hu, hlast⟩ := exists_last_run hT
  obtain ⟨w, b, rfl, hb, hw⟩ := exists_rspan isBlank u
  rw [runs_append_seps hb] at hu
  have hTne : T ≠ [] := by
    rintro rfl
    rw [hT] at ht
    exact absurd (reader_complete ht) (by simp [show reader [str "&"] .start = none by decide])
  obtain ⟨v, a, rfl⟩ := (eq_nil_or_concat' w).resolve_left fun hw0 => by
    rw [hw0, runs_nil] at hu
    exact hTne hu.symm
  have hbne : b ≠ [] := by
    rintro rfl
    exact absurd (hlast v a (by simp)) (by simp [hw v a rfl])
  have ha : isTrailer a = false := by
    have hblank := hw v a rfl
    have hamp : a ≠ 38 := by
      rintro rfl
      exact hone ⟨v, b, c, by simp [str], hbne, hb, hc⟩
    unfold isBlank at hblank
    unfold isTrailer
    simp only [Bool.or_eq_false_iff] at hblank ⊢
    exact ⟨⟨by simpa using hamp, hblank.1⟩, hblank.2⟩
  have htrim : (v ++ [a] ++ b ++ str "&" ++ c).rdropWhile isTrailer = v ++ [a] := by
    rw [append_assoc _ (str "&"), show str "&" ++ c = 38 :: c from rfl, rdropWhile_amp _ hb hc,
      rdropWhile_concat_neg _ _ _ (by simp [ha])]
  rw [htrim, hT]
  constructor
  · rw [show str " &" = 32 :: str "&" from rfl, runs_append_sep (by decide), hu]
    congr 1
  · have := length_pos_of_ne_nil hbne
    simp [str]
    omega

/-- **The command text of a job line is faithful unless the line ends in two `&`**: parsing what is
shown for an accepted line gives back its commands exactly if the line does not end in an `&` and,
after some blanks, another. -/
theorem shown_parses_same_iff (h0 : 0 ∉ line) (h : parseLine (some line) = .ok job) :
    (∃ job', parseLine (some job.shown) = .ok job' ∧ job'.text = job.text) ↔
      ¬ EndsInTwoAmps line := by
  have h0' : 0 ∉ job.shown := by
    have hcmd : 0 ∉ job.cmdline := by
      rw [parseLine_cmdline h]
      split
      · exact fun hm => h0 ((List.rdropWhile_prefix _ _).subset hm)
      · exact h0
    rw [Job.shown, mem_append, not_or]
    exact ⟨hcmd, by split <;> decide⟩
  constructor
  · rintro ⟨job', hjob', htext⟩ htwo
    have hlt := shown_short h0 h htwo
    rw [← size_text h0 h, ← size_text h0' hjob', htext] at hlt
    exact Nat.lt_irrefl _ hlt
  · intro hone
    by_cases hbg : job.background = true
    · obtain ⟨hruns, hlen⟩ := shown_of_single h0 h hbg hone
      obtain ⟨t, ht, htext⟩ := parseLine_derives h0 h
      have hlen' : job.shown.length ≤ yashMaxLine := hlen.trans (parseLine_ok h).1
      obtain ⟨-, hok, -⟩ := parseLine_spec job.shown hlen' h0'
      obtain ⟨job', hjob'⟩ := hok.mpr ⟨t, hruns ▸ ht⟩
      obtain ⟨t', ht', htext'⟩ := parseLine_derives h0' hjob'
      rw [hruns] at ht'
      exact ⟨job', hjob', by rw [htext', htext, derives_unique ht' ht]⟩
    · have hshown : job.shown = line := by
        rw [Job.shown, parseLine_cmdline h, if_neg hbg, if_neg hbg, append_nil]
      exact ⟨job, by rw [hshown, h], rfl⟩

end Accepted

instance (r : ParseResult) (P : Job → Prop) [DecidablePred P] :
    Decidable (∃ job, r = .ok job ∧ P job) :=
  match r with
  | .ok job => decidable_of_iff (P job) (by simp)
  | .empty => isFalse (by simp)
  | .error => isFalse (by simp)

/-- `sleep 5  &` is shown with one of its blanks, and parses as it did. -/
theorem shown_parses_same_sleep :
    ∃ job, parseLine (some (str "sleep 5  &")) = .ok job ∧ job.shown = str "sleep 5 &" ∧
      (∃ job', parseLine (some job.shown) = .ok job' ∧ job'.text = job.text) ∧
      ¬ EndsInTwoAmps (str "sleep 5  &") := by
  obtain ⟨job, hjob, hshown, hsame⟩ :
      ∃ job, parseLine (some (str "sleep 5  &")) = .ok job ∧ job.shown = str "sleep 5 &" ∧
        ∃ job', parseLine (some job.shown) = .ok job' ∧ job'.text = job.text := by
    decide +kernel
  exact ⟨job, hjob, hshown, hsame, (shown_parses_same_iff (by decide) hjob).mp hsame⟩

/-- `echo a& &` passes `a&` to `echo` and is shown as `echo a &`, which passes `a`. -/
theorem shown_echo_amp :
    ∃ job, parseLine (some (str "echo a& &")) = .ok job ∧
    job.text.cmds.map CmdText.argv = [[some (str "echo"), some (str "a&"), none]] ∧
    job.shown = str "echo a &" ∧ ∃ job', parseLine (some job.shown) = .ok job' ∧
      job'.text.cmds.map CmdText.argv = [[some (str "echo"), some (str "a"), none]] := by
  decide +kernel

end SystemProg.Shell

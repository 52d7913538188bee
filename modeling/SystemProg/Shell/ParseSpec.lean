import SystemProg.Shell.Parse
import SystemProg.Shell.Grammar

/-!
# `parse_line` accepts exactly the grammar

The token loop keeps, in `job_t`, the tree `reader` keeps: `Sim` relates the two, `parse_agrees`
runs them side by side over any token list, and `tokenize_spec` supplies the tokens.

* `parseLine_spec`: on a line of at most `YASH_MAX_LINE` non-NUL characters whose maximal
  blank-free runs are `T`, the result is `PARSE_EMPTY` iff `T` is empty, `PARSE_OK` iff `T` has a
  derivation, and `PARSE_ERROR` otherwise; the job returned shows the only derivation there is
  (`Shows`), and the tokenizer never runs out of its `YASH_MAX_TOKENS` slots.
-/

namespace SystemProg.Shell

open Text List Option

/-- The `cmd_t` field of a redirection operator. -/
def RedirOp.slot : RedirOp → Slot
  | .read => .infile
  | .write => .outfile
  | .writeErr => .errfile

/-- A `cmd_t` holds the command `ct`: its `argc`, its words followed by NULLs, its redirections. -/
structure CmdIs (buf : List Byte) (c : Cmd) (ct : CmdTree) : Prop where
  argc : c.argc = ct.args.length
  argv : c.argv.map (Option.map (strAt buf)) =
    ct.args.map some ++ List.replicate (yashMaxArgs + 1 - ct.args.length) none
  slots : ∀ op : RedirOp, (c.get op.slot).map (strAt buf) = ct.target op

/-- A job is the one a derivation describes: `ncmds`, `background`, and for each command its
`argc`, its NULL-terminated `argv` and its three redirections. -/
structure Shows (job : Job) (t : LineTree) : Prop where
  ncmds : job.ncmds = t.cmds.length
  background : job.background = t.background
  argc : (job.cmds.take job.ncmds).map Cmd.argc = t.cmds.map fun c => c.args.length
  argv : (job.cmds.take job.ncmds).map
      (fun c => (c.argv.take (c.argc + 1)).map (Option.map (strAt job.buf))) =
    t.cmds.map fun c => c.args.map some ++ [none]
  infile : (job.cmds.take job.ncmds).map (fun c => c.infile.map (strAt job.buf)) =
    t.cmds.map fun c => c.target .read
  outfile : (job.cmds.take job.ncmds).map (fun c => c.outfile.map (strAt job.buf)) =
    t.cmds.map fun c => c.target .write
  errfile : (job.cmds.take job.ncmds).map (fun c => c.errfile.map (strAt job.buf)) =
    t.cmds.map fun c => c.target .writeErr

/-! ## Operators -/

theorem redirectSlot_eq (t : Token) : redirectSlot t = (redirOp t).map RedirOp.slot := by
  unfold redirectSlot redirOp
  split_ifs <;> rfl

theorem isOperator_eq (t : Token) : isOperator t = !decide (IsWord t) := by
  unfold isOperator IsWord operators
  simp only [Bool.beq_eq_decide_eq, mem_cons, not_mem_nil, or_false, not_or,
    Bool.decide_and, decide_not, Bool.not_and, Bool.not_not, Bool.or_assoc]

/-! ## One command -/

section OneCommand

variable {buf : List Byte} {c : Cmd} {ct : CmdTree}

theorem cmdIs_zero (buf : List Byte) : CmdIs buf Cmd.zero ⟨[], []⟩ :=
  ⟨rfl, by simp [Cmd.zero], fun op => by cases op <;> rfl⟩

theorem CmdIs.argc_eq_zero (h : CmdIs buf c ct) : c.argc = 0 ↔ ct.args = [] := by
  rw [h.argc, length_eq_zero_iff]

/-- A slot is filled iff the direction has been redirected. -/
theorem CmdIs.get_isSome (h : CmdIs buf c ct) (op : RedirOp) :
    (c.get op.slot).isSome = true ↔ op ∈ ct.redirs.map Prod.fst := by
  have hs := h.slots op
  rw [← isSome_map (f := strAt buf), hs, CmdTree.target, lookup_isSome_iff]
  simp

theorem CmdIs.addArg (h : CmdIs buf c ct) (hlt : ct.args.length < yashMaxArgs) (t : Nat) :
    CmdIs buf (c.addArg t) ⟨ct.args ++ [strAt buf t], ct.redirs⟩ := by
  refine ⟨by simp [Cmd.addArg, h.argc], ?_, fun op => ?_⟩
  · have hrep : yashMaxArgs + 1 - ct.args.length = (yashMaxArgs - ct.args.length) + 1 := by omega
    have hrep' : yashMaxArgs + 1 - (ct.args.length + 1) = yashMaxArgs - ct.args.length := by omega
    simp only [Cmd.addArg, map_set, h.argv, h.argc, length_append,
      length_singleton, map_append, map_cons, map_nil, map_some]
    rw [hrep, hrep', replicate_succ, set_append_right _ _ (by simp)]
    simp
  · have := h.slots op
    cases op <;> exact this

theorem CmdIs.addRedir (h : CmdIs buf c ct) {op : RedirOp} (hop : op ∉ ct.redirs.map Prod.fst)
    (t : Nat) : CmdIs buf (c.put t op.slot) ⟨ct.args, ct.redirs ++ [(op, strAt buf t)]⟩ := by
  have hnone : ct.redirs.lookup op = none := lookup_eq_none hop
  refine ⟨by cases op <;> exact h.argc, by cases op <;> exact h.argv, fun op' => ?_⟩
  have := h.slots op'
  simp only [CmdTree.target, lookup_append, lookup_cons, lookup_nil] at this ⊢
  by_cases he : op' = op
  · subst he
    rw [hnone]
    cases op' <;> simp [Cmd.get, Cmd.put, RedirOp.slot]
  · rw [← this]
    have hb : (op' == op) = false := by simpa using he
    rw [hb]
    cases op <;> cases op' <;> first | exact absurd rfl he | simp [Cmd.get, Cmd.put, RedirOp.slot]

/-- Terminating `argv` writes the NULL that is already there. -/
theorem CmdIs.terminate (h : CmdIs buf c ct) (hb : ct.args.length ≤ yashMaxArgs) :
    CmdIs buf c.terminate ct := by
  refine ⟨h.argc, ?_, fun op => ?_⟩
  · have hrep : yashMaxArgs + 1 - ct.args.length = (yashMaxArgs - ct.args.length) + 1 := by omega
    simp only [Cmd.terminate, map_set, h.argv, h.argc, map_none]
    rw [hrep, replicate_succ, set_append_right _ _ (by simp)]
    simp
  · have := h.slots op
    cases op <;> exact this

/-- The words of a command are followed by a NULL. -/
theorem CmdIs.argv_take (h : CmdIs buf c ct) (hb : ct.args.length ≤ yashMaxArgs) :
    (c.argv.take (c.argc + 1)).map (Option.map (strAt buf)) = ct.args.map some ++ [none] := by
  have hrep : yashMaxArgs + 1 - ct.args.length = (yashMaxArgs - ct.args.length) + 1 := by omega
  rw [map_take, h.argv, h.argc, hrep, replicate_succ, take_append, take_of_length_le (by simp)]
  simp

end OneCommand

/-! ## The token loop against the reader -/

/-- The scan and the reader have read the same part of the line. -/
structure Sim (buf : List Byte) (st : Scan) (p : Partial) : Prop where
  bound : p.cur.args.length ≤ yashMaxArgs
  seen : st.redirectSeen = !p.cur.redirs.isEmpty
  background : st.job.background = p.bg
  bufEq : st.job.buf = buf
  leftBg : p.left.isSome = true → p.bg = false
  /-- `ci` counts the pipes, and `cmds` holds the commands up to the current one. -/
  cmds : match p.left with
    | none => st.ci = 0 ∧ ∃ c, CmdIs buf c p.cur ∧ st.job.cmds = [c, Cmd.zero]
    | some l => st.ci = 1 ∧ l.args.length ≤ yashMaxArgs ∧
      ∃ c₀ c, CmdIs buf c₀ l ∧ CmdIs buf c p.cur ∧ st.job.cmds = [c₀, c]

section SideBySide

variable {buf : List Byte} {st : Scan} {p : Partial}

theorem sim_start (line buf : List Byte) : Sim buf ⟨freshJob line buf, 0, false⟩ Partial.start :=
  ⟨by simp [Partial.start], rfl, rfl, rfl, by simp [Partial.start],
    ⟨rfl, Cmd.zero, cmdIs_zero buf, rfl⟩⟩

theorem Sim.cur (h : Sim buf st p) : CmdIs buf st.cur p.cur := by
  have hc := h.cmds
  unfold Scan.cur
  cases hl : p.left with
  | none =>
    rw [hl] at hc
    obtain ⟨hci, c, hcur, hcmds⟩ := hc
    simpa [hci, hcmds] using hcur
  | some l =>
    rw [hl] at hc
    obtain ⟨hci, -, c₀, c, -, hcur, hcmds⟩ := hc
    simpa [hci, hcmds] using hcur

/-- `ci` is `0` before the pipe and `1` after it. -/
theorem Sim.ci_ne_zero (h : Sim buf st p) : st.ci ≠ 0 ↔ p.left.isSome = true := by
  have hc := h.cmds
  cases hl : p.left with
  | none => rw [hl] at hc; simp [hc.1]
  | some l => rw [hl] at hc; simp [hc.1]

theorem Sim.ci_full (h : Sim buf st p) : st.ci + 1 ≥ yashMaxCmds ↔ p.left.isSome = true := by
  rw [← h.ci_ne_zero]
  unfold yashMaxCmds
  omega

theorem Sim.setCur (h : Sim buf st p) {c : Cmd} {ct : CmdTree} (hc : CmdIs buf c ct)
    (hb : ct.args.length ≤ yashMaxArgs) :
    Sim buf { st.setCur c with redirectSeen := !ct.redirs.isEmpty } { p with cur := ct } := by
  refine ⟨hb, rfl, h.background, h.bufEq, h.leftBg, ?_⟩
  have hcs := h.cmds
  cases hl : p.left with
  | none =>
    rw [hl] at hcs
    obtain ⟨hci, c', -, hcmds⟩ := hcs
    exact ⟨hci, c, hc, by simp [Scan.setCur, hcmds, hci]⟩
  | some l =>
    rw [hl] at hcs
    obtain ⟨hci, hlb, c₀, c', hc₀, -, hcmds⟩ := hcs
    exact ⟨hci, hlb, c₀, c, hc₀, hc, by simp [Scan.setCur, hcmds, hci]⟩

theorem Sim.addArg (h : Sim buf st p) (hlt : p.cur.args.length < yashMaxArgs) (t : Nat) :
    Sim buf (st.setCur (st.cur.addArg t)) (p.addArg (strAt buf t)) := by
  have := h.setCur (h.cur.addArg hlt t) (by simpa using Nat.succ_le_of_lt hlt)
  have hseen : (st.setCur (st.cur.addArg t)).redirectSeen = !p.cur.redirs.isEmpty := h.seen
  rw [← hseen] at this
  exact this

theorem Sim.addRedir (h : Sim buf st p) {op : RedirOp} (hop : op ∉ p.cur.redirs.map Prod.fst)
    (t : Nat) : Sim buf { st.setCur (st.cur.put t op.slot) with redirectSeen := true }
      (p.addRedir op (strAt buf t)) := by
  have := h.setCur (h.cur.addRedir hop t) h.bound
  have hseen : (!(p.cur.redirs ++ [(op, strAt buf t)]).isEmpty) = true := by simp
  rw [hseen] at this
  exact this

/-- A pipe starts the second command, whose `cmd_t` is still zero. -/
theorem Sim.pipe (h : Sim buf st p) (hl : p.left = none) (hbg : p.bg = false) :
    Sim buf { st with ci := st.ci + 1, redirectSeen := false }
      ⟨some p.cur, ⟨[], []⟩, p.bg⟩ := by
  have hc := h.cmds
  rw [hl] at hc
  obtain ⟨hci, c, hcur, hcmds⟩ := hc
  exact ⟨by simp, rfl, h.background, h.bufEq, fun _ => hbg,
    by simp [hci], h.bound, c, Cmd.zero, hcur, cmdIs_zero buf, hcmds⟩

theorem Sim.amp (h : Sim buf st p) (hl : p.left = none) :
    Sim buf { st with job := { st.job with background := true } } { p with bg := true } := by
  refine ⟨h.bound, h.seen, rfl, h.bufEq, by simp [hl], ?_⟩
  have hc := h.cmds
  rw [hl] at hc ⊢
  exact hc

/-- The job at the end of the line shows the tree the reader returns. -/
theorem Sim.finish (h : Sim buf st p) (hne : p.cur.args ≠ []) :
    ∃ job, finishLine st = some job ∧ Shows job p.tree := by
  have hargc : st.cur.argc ≠ 0 := fun h0 => hne (h.cur.argc_eq_zero.mp h0)
  unfold finishLine
  rw [if_neg hargc]
  refine ⟨_, rfl, ?_⟩
  have hc := h.cmds
  have hbg := h.background
  have hbuf := h.bufEq
  unfold Partial.tree
  cases hl : p.left with
  | none =>
    rw [hl] at hc
    obtain ⟨hci, c, hcur, hcmds⟩ := hc
    have ht := hcur.terminate h.bound
    refine ⟨by simp [hci, LineTree.cmds], hbg, ?_, ?_, ?_, ?_, ?_⟩ <;>
      simp only [hci, hcmds, hbuf, LineTree.cmds, mapIdx_cons, mapIdx_nil,
        take_succ_cons, take_zero, map_cons, map_nil, Nat.zero_add, Nat.lt_one_iff, if_true]
    · rw [ht.argc]
    · rw [ht.argv_take h.bound]
    · rw [← ht.slots .read]; rfl
    · rw [← ht.slots .write]; rfl
    · rw [← ht.slots .writeErr]; rfl
  | some l =>
    rw [hl] at hc
    obtain ⟨hci, hlb, c₀, c, hc₀, hcur, hcmds⟩ := hc
    have ht₀ := hc₀.terminate hlb
    have ht := hcur.terminate h.bound
    refine ⟨by simp [hci, LineTree.cmds], hbg.trans (h.leftBg (by simp [hl])),
        ?_, ?_, ?_, ?_, ?_⟩ <;>
      simp only [hci, hcmds, hbuf, LineTree.cmds, mapIdx_cons, mapIdx_nil,
        take_succ_cons, take_zero, map_cons, map_nil, Nat.zero_add,
        Nat.reduceAdd, Nat.reduceLT, Nat.zero_lt_two, if_true]
    · rw [ht₀.argc, ht.argc]
    · rw [ht₀.argv_take hlb, ht.argv_take h.bound]
    · rw [← ht₀.slots .read, ← ht.slots .read]; rfl
    · rw [← ht₀.slots .write, ← ht.slots .write]; rfl
    · rw [← ht₀.slots .writeErr, ← ht.slots .writeErr]; rfl

end SideBySide

/-- The outcome of the scan is the reader's: the job shown for a tree, rejection otherwise. -/
def Agrees (r : Option Job) : Option LineTree → Prop
  | some t => ∃ job, r = some job ∧ Shows job t
  | none => r = none

/-- **The token loop computes the reader.** -/
theorem parse_agrees (buf : List Byte) : ∀ (ts : List Nat) (st : Scan) (p : Partial),
    Sim buf st p → (p.bg = true → ts = []) →
      Agrees ((parseLoop buf ts st).bind finishLine) (reader (ts.map (strAt buf)) p)
  | [], st, p, h, _ => by
    rw [parseLoop, map_nil, reader]
    by_cases hne : p.cur.args = []
    · rw [if_pos hne]
      have := h.cur.argc_eq_zero.mpr hne
      simp [Agrees, finishLine, this]
    · rw [if_neg hne]
      exact h.finish hne
  | t :: ts, st, p, h, hbg => by
    have hb : p.bg = false := by
      cases hb : p.bg with
      | false => rfl
      | true => exact absurd (hbg hb) (by simp)
    have hargs := h.cur.argc_eq_zero
    rw [parseLoop, map_cons, reader, redirectSlot_eq]
    cases hop : redirOp (strAt buf t) with
    | some op =>
      simp only [map_some]
      by_cases hne : p.cur.args = []
      · rw [if_pos (hargs.mpr hne), if_pos hne]; rfl
      rw [if_neg (fun h0 => hne (hargs.mp h0)), if_neg hne]
      by_cases hold : op ∈ p.cur.redirs.map Prod.fst
      · rw [if_pos ((h.cur.get_isSome op).mpr hold), if_pos hold]; rfl
      rw [if_neg (fun hs => hold ((h.cur.get_isSome op).mp hs)), if_neg hold]
      cases ts with
      | nil => rfl
      | cons u us =>
        rw [map_cons]
        simp only [isOperator_eq]
        by_cases hw : IsWord (strAt buf u)
        · rw [if_neg (by simp [hw]), if_pos hw]
          exact parse_agrees buf us _ _ (h.addRedir hold u)
            (fun hb' => absurd (hb.symm.trans hb') (by simp))
        · rw [if_pos (by simp [hw]), if_neg hw]; rfl
    | none =>
      simp only [map_none]
      by_cases hpipe : strAt buf t = str "|"
      · rw [if_pos hpipe, if_pos hpipe]
        by_cases hl : p.left.isSome = true
        · rw [if_pos (h.ci_full.mpr hl), if_pos hl]; rfl
        rw [if_neg (fun hf => hl (h.ci_full.mp hf)), if_neg hl]
        by_cases hne : p.cur.args = []
        · rw [if_pos (hargs.mpr hne), if_pos hne]; rfl
        rw [if_neg (fun h0 => hne (hargs.mp h0)), if_neg hne]
        exact parse_agrees buf ts _ _ (h.pipe (by simpa using hl) hb)
          (fun hb' => absurd (hb.symm.trans hb') (by simp))
      rw [if_neg hpipe, if_neg hpipe]
      by_cases hamp : strAt buf t = str "&"
      · rw [if_pos hamp, if_pos hamp]
        by_cases hts : ts = []
        · subst hts
          rw [map_nil, if_neg (show ¬ ([] : List Nat) ≠ [] from fun hne => hne rfl),
            if_neg (show ¬ ([] : List Token) ≠ [] from fun hne => hne rfl)]
          by_cases hl : p.left.isSome = true
          · rw [if_pos (h.ci_ne_zero.mpr hl), if_pos hl]; rfl
          rw [if_neg (fun hc => hl (h.ci_ne_zero.mp hc)), if_neg hl]
          exact parse_agrees buf [] _ _ (h.amp (by simpa using hl)) (fun _ => rfl)
        · rw [if_pos hts, if_pos (by simpa using hts)]; rfl
      rw [if_neg hamp, if_neg hamp, h.seen]
      have hseen : (!p.cur.redirs.isEmpty) = true ↔ p.cur.redirs ≠ [] := by simp
      by_cases hr : p.cur.redirs = []
      · rw [if_neg (fun hs => hseen.mp hs hr), if_neg (show ¬ p.cur.redirs ≠ [] from (· hr))]
        have hmax : maxWords = yashMaxArgs := rfl
        rw [h.cur.argc, hmax]
        by_cases hlen : p.cur.args.length = yashMaxArgs
        · rw [if_pos hlen, if_pos hlen]; rfl
        rw [if_neg hlen, if_neg hlen]
        have hlt : p.cur.args.length < yashMaxArgs := by have := h.bound; omega
        exact parse_agrees buf ts _ _ (h.addArg hlt t)
          (fun hb' => absurd (hb.symm.trans hb') (by simp))
      · rw [if_pos (hseen.mpr hr), if_pos hr]; rfl

/-! ## The line -/

theorem rest_lineBuf {line : List Byte} (hlen : line.length ≤ yashMaxLine) (h0 : 0 ∉ line) :
    Rest (lineBuf line) 0 line := by
  refine ⟨h0, List.replicate (yashMaxLine - line.length) 0, ?_⟩
  have : yashMaxLine + 1 - line.length = (yashMaxLine - line.length) + 1 := by omega
  rw [drop_zero, lineBuf, this, replicate_succ]

/-- The token array never overflows: a line has at most half as many tokens as characters. -/
theorem tokenize_line {line : List Byte} (hlen : line.length ≤ yashMaxLine) (h0 : 0 ∉ line) :
    ∃ ts buf, tokenize isBlank (lineBuf line) 0 yashMaxTokens = (some ts, buf) ∧
      ts.map (strAt buf) = runs isBlank line := by
  have hn : (runs isBlank line).length ≤ yashMaxTokens := by
    have := two_mul_length_runs_le isBlank line
    unfold yashMaxLine at hlen
    unfold yashMaxTokens
    omega
  obtain ⟨ts, buf, htok, -, hmap⟩ := tokenize_spec isBlank yashMaxTokens (rest_lineBuf hlen h0) hn
  exact ⟨ts, buf, htok, hmap⟩

/-- The result of `parse_line` in terms of the reader. -/
theorem parseLine_agrees {line : List Byte} (hlen : line.length ≤ yashMaxLine) (h0 : 0 ∉ line) :
    (runs isBlank line = [] ∧ parseLine (some line) = .empty) ∨
    (runs isBlank line ≠ [] ∧
      ((∃ t job, reader (runs isBlank line) Partial.start = some t ∧
          parseLine (some line) = .ok job ∧ Shows job t) ∨
        (reader (runs isBlank line) Partial.start = none ∧ parseLine (some line) = .error))) := by
  obtain ⟨ts, buf, htok, hmap⟩ := tokenize_line hlen h0
  have hn : ¬ yashMaxLine < line.length := by omega
  simp only [parseLine, if_neg hn, htok]
  cases ts with
  | nil => exact Or.inl ⟨by simpa using hmap.symm, rfl⟩
  | cons t ts =>
    refine Or.inr ⟨by rw [← hmap]; simp, ?_⟩
    have := parse_agrees buf (t :: ts) _ _ (sim_start line buf) (by simp [Partial.start])
    rw [hmap] at this
    cases hr : reader (runs isBlank line) Partial.start with
    | none =>
      rw [hr] at this
      exact Or.inr ⟨rfl, by simp only [show _ = none from this]⟩
    | some tree =>
      rw [hr] at this
      obtain ⟨job, hjob, hshows⟩ := this
      exact Or.inl ⟨tree, job, rfl, by simp only [hjob], hshows⟩

/-- **`parse_line` accepts exactly the grammar and builds exactly its parse.** -/
theorem parseLine_spec (line : List Byte) (hlen : line.length ≤ yashMaxLine) (h0 : 0 ∉ line) :
    (parseLine (some line) = .empty ↔ runs isBlank line = []) ∧
    ((∃ job, parseLine (some line) = .ok job) ↔ ∃ t, Derives (runs isBlank line) t) ∧
    (parseLine (some line) = .error ↔
      runs isBlank line ≠ [] ∧ ¬ ∃ t, Derives (runs isBlank line) t) ∧
    (tokenize isBlank (lineBuf line) 0 yashMaxTokens).1 ≠ none ∧
    ∀ job, parseLine (some line) = .ok job →
      ∃ t, Derives (runs isBlank line) t ∧ Shows job t ∧
        ∀ t', Derives (runs isBlank line) t' → t' = t := by
  have htok : (tokenize isBlank (lineBuf line) 0 yashMaxTokens).1 ≠ none := by
    obtain ⟨ts, buf, htok, -⟩ := tokenize_line hlen h0
    simp [htok]
  rcases parseLine_agrees hlen h0 with ⟨hT, hp⟩ | ⟨hT, ⟨t, job, hr, hp, hs⟩ | ⟨hr, hp⟩⟩
  · have hnone : ¬ ∃ t, Derives (runs isBlank line) t := by
      rintro ⟨t, ht⟩
      have := reader_complete ht
      rw [hT] at this
      simp [reader, Partial.start] at this
    rw [hp]
    refine ⟨by simp [hT], ?_, by simp [hT], htok, by simp⟩
    exact ⟨by simp, fun h => absurd h hnone⟩
  · have ht := reader_iff.mp hr
    rw [hp]
    refine ⟨by simp [hT], ⟨fun _ => ⟨t, ht⟩, fun _ => ⟨job, rfl⟩⟩, ?_, htok, ?_⟩
    · simpa using fun _ => ⟨t, ht⟩
    · rintro job' hj
      cases hj
      exact ⟨t, ht, hs, fun t' ht' => derives_unique ht' ht⟩
  · have hnone : ¬ ∃ t, Derives (runs isBlank line) t := by
      rintro ⟨t, ht⟩
      exact absurd (hr.symm.trans (reader_complete ht)) (by simp)
    rw [hp]
    refine ⟨by simp [hT], ?_, by simpa [hT] using hnone, htok, by simp⟩
    exact ⟨by simp, fun h => absurd h hnone⟩

/-- The lines `cat < in &` and `cat <` are of the two kinds. -/
theorem parseLine_spec_cat :
    (∃ job, parseLine (some (str "cat < in &")) = .ok job ∧
      Shows job (.simple ⟨[str "cat"], [(.read, str "in")]⟩ true)) ∧
    ¬ ∃ t, Derives (runs isBlank (str "cat <")) t := by
  obtain ⟨-, hok, -, -, hshow⟩ := parseLine_spec (str "cat < in &") (by decide) (by decide)
  obtain ⟨-, -, herr, -⟩ := parseLine_spec (str "cat <") (by decide) (by decide)
  have hder : Derives (runs isBlank (str "cat < in &"))
      (.simple ⟨[str "cat"], [(.read, str "in")]⟩ true) :=
    ⟨⟨by decide, by decide, by decide, by decide, by decide⟩, by decide⟩
  obtain ⟨job, hjob⟩ := hok.mpr ⟨_, hder⟩
  obtain ⟨t, -, hs, huniq⟩ := hshow job hjob
  exact ⟨⟨job, hjob, huniq _ hder ▸ hs⟩, (herr.mp (by decide)).2⟩

end SystemProg.Shell

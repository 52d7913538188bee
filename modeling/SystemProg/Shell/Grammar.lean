import SystemProg.Text.CString
import Mathlib.Data.List.Nodup

/-!
# The shell's grammar

What a line means, apart from how it is scanned:

    line  := cmd ['&'] | cmd '|' cmd
    cmd   := word{1..64} redir*
    redir := ('<' | '>' | '2>') word

where a word is any token other than the five operators and a command redirects each direction at
most once. A derivation is a tree (`LineTree`); `Derives T t` says that `t` is well formed and
spells out the tokens `T`.

`reader` is a left-to-right reader of this grammar over tokens, keeping the part of the tree read so
far. `reader_sound` and `reader_complete` make it exact: it returns `t` iff `t` derives the tokens.
So a line has at most one derivation (`derives_unique`).
-/

namespace SystemProg.Shell

open Text List

/-- A token. -/
abbrev Token := List Byte

/-- The tokens that are not words. -/
def operators : List Token := [str "<", str ">", str "2>", str "|", str "&"]

/-- A token that is a word. -/
def IsWord (t : Token) : Prop := t ∉ operators

instance (t : Token) : Decidable (IsWord t) := inferInstanceAs (Decidable (t ∉ operators))

/-- The three redirection operators. -/
inductive RedirOp where
  | read
  | write
  | writeErr
  deriving Repr, DecidableEq

/-- The token of an operator. -/
def RedirOp.tok : RedirOp → Token
  | .read => str "<"
  | .write => str ">"
  | .writeErr => str "2>"

/-- A command: its words and its redirections, in order. -/
structure CmdTree where
  args : List Token
  redirs : List (RedirOp × Token)
  deriving Repr, DecidableEq

/-- The tokens of redirections. -/
def redirToks (rs : List (RedirOp × Token)) : List Token := rs.flatMap fun r => [r.1.tok, r.2]

/-- The tokens a command is written as. -/
def CmdTree.toks (c : CmdTree) : List Token := c.args ++ redirToks c.redirs

/-- The word limit of a command. -/
def maxWords : Nat := 64

/-- A command that the grammar allows. -/
structure CmdTree.Wf (c : CmdTree) : Prop where
  nonempty : c.args ≠ []
  bound : c.args.length ≤ maxWords
  words : ∀ a ∈ c.args, IsWord a
  once : (c.redirs.map Prod.fst).Nodup
  targets : ∀ r ∈ c.redirs, IsWord r.2

/-- A line: one command, in the foreground or the background, or two joined by a pipe. -/
inductive LineTree where
  | simple (c : CmdTree) (background : Bool)
  | pipe (l r : CmdTree)
  deriving Repr, DecidableEq

/-- The tokens of a line. -/
def LineTree.toks : LineTree → List Token
  | .simple c bg => c.toks ++ if bg then [str "&"] else []
  | .pipe l r => l.toks ++ str "|" :: r.toks

/-- A line that the grammar allows. -/
def LineTree.Wf : LineTree → Prop
  | .simple c _ => c.Wf
  | .pipe l r => l.Wf ∧ r.Wf

/-- The commands of a line, left to right. -/
def LineTree.cmds : LineTree → List CmdTree
  | .simple c _ => [c]
  | .pipe l r => [l, r]

/-- Whether it ends in `&`. -/
def LineTree.background : LineTree → Bool
  | .simple _ bg => bg
  | .pipe _ _ => false

/-- The target of a command's redirection `op`, if it has one. -/
def CmdTree.target (c : CmdTree) (op : RedirOp) : Option Token := c.redirs.lookup op

theorem lookup_eq_none {rs : List (RedirOp × Token)} {op : RedirOp} (h : op ∉ rs.map Prod.fst) :
    rs.lookup op = none := by
  rw [lookup_eq_none_iff]
  intro r hr
  simp only [bne_iff_ne, ne_eq]
  rintro rfl
  exact h (mem_map_of_mem hr)

/-- `t` is a derivation of the tokens `T`. -/
def Derives (T : List Token) (t : LineTree) : Prop := t.Wf ∧ t.toks = T

/-! ## Reading left to right -/

/-- A line read in part: the command before the pipe, the command being read, and whether `&` has
been seen. -/
structure Partial where
  left : Option CmdTree
  cur : CmdTree
  bg : Bool

/-- Nothing has been read. -/
def Partial.start : Partial := ⟨none, ⟨[], []⟩, false⟩

/-- A word is read. -/
def Partial.addArg (p : Partial) (t : Token) : Partial :=
  { p with cur := { p.cur with args := p.cur.args ++ [t] } }

/-- A redirection is read. -/
def Partial.addRedir (p : Partial) (op : RedirOp) (t : Token) : Partial :=
  { p with cur := { p.cur with redirs := p.cur.redirs ++ [(op, t)] } }

/-- The tree of a fully read line. -/
def Partial.tree (p : Partial) : LineTree :=
  match p.left with
  | none => .simple p.cur p.bg
  | some l => .pipe l p.cur

/-- The redirection operator a token is. -/
def redirOp (t : Token) : Option RedirOp :=
  if t = str "<" then some .read
  else if t = str ">" then some .write
  else if t = str "2>" then some .writeErr
  else none

/-- Reading the rest of a line. -/
def reader : List Token → Partial → Option LineTree
  | [], p => if p.cur.args = [] then none else some p.tree
  | tok :: rest, p =>
    match redirOp tok with
    | some op =>
      if p.cur.args = [] then none
      else if op ∈ p.cur.redirs.map Prod.fst then none
      else
        match rest with
        | [] => none
        | file :: rest' => if IsWord file then reader rest' (p.addRedir op file) else none
    | none =>
      if tok = str "|" then
        if p.left.isSome then none
        else if p.cur.args = [] then none
        else reader rest ⟨some p.cur, ⟨[], []⟩, p.bg⟩
      else if tok = str "&" then
        if rest ≠ [] then none
        else if p.left.isSome then none
        else reader rest { p with bg := true }
      else if p.cur.redirs ≠ [] then none
      else if p.cur.args.length = maxWords then none
      else reader rest (p.addArg tok)

/-! ### Operators -/

theorem redirOp_tok (op : RedirOp) : redirOp op.tok = some op := by
  cases op <;> decide

theorem tok_of_redirOp {t : Token} {op : RedirOp} (h : redirOp t = some op) : t = op.tok := by
  unfold redirOp at h
  split at h
  · cases h; assumption
  · split at h
    · cases h; assumption
    · split at h
      · cases h; assumption
      · cases h

/-- A token is a word iff it is none of the operators the reader tests for. -/
theorem isWord_iff {t : Token} :
    IsWord t ↔ redirOp t = none ∧ t ≠ str "|" ∧ t ≠ str "&" := by
  unfold IsWord operators redirOp
  simp only [mem_cons, not_mem_nil, or_false, not_or]
  constructor
  · rintro ⟨h1, h2, h3, h4, h5⟩
    exact ⟨by rw [if_neg h1, if_neg h2, if_neg h3], h4, h5⟩
  · rintro ⟨h, h4, h5⟩
    split at h
    · cases h
    · split at h
      · cases h
      · split at h
        · cases h
        · exact ⟨by assumption, by assumption, by assumption, h4, h5⟩

/-! ### Soundness -/

/-- What holds of a partly read line: the commands are well formed as far as they go. -/
structure Partial.Ok (p : Partial) : Prop where
  left : ∀ l, p.left = some l → l.Wf ∧ p.bg = false
  bound : p.cur.args.length ≤ maxWords
  words : ∀ a ∈ p.cur.args, IsWord a
  once : (p.cur.redirs.map Prod.fst).Nodup
  targets : ∀ r ∈ p.cur.redirs, IsWord r.2

/-- The tokens read so far. -/
def Partial.toks (p : Partial) : List Token :=
  (match p.left with
    | none => []
    | some l => l.toks ++ [str "|"]) ++ p.cur.toks ++ if p.bg then [str "&"] else []

theorem Partial.ok_start : Partial.start.Ok :=
  ⟨by simp [Partial.start], by simp [Partial.start], by simp [Partial.start],
    by simp [Partial.start], by simp [Partial.start]⟩

theorem Partial.Ok.cur_wf {p : Partial} (h : p.Ok) (hne : p.cur.args ≠ []) : p.cur.Wf :=
  ⟨hne, h.bound, h.words, h.once, h.targets⟩

theorem Partial.Ok.addArg {p : Partial} (h : p.Ok) {t : Token} (ht : IsWord t)
    (hlt : p.cur.args.length ≠ maxWords) : (p.addArg t).Ok := by
  refine ⟨h.left, ?_, ?_, h.once, h.targets⟩
  · have := h.bound
    simp only [Partial.addArg, length_append, length_singleton]
    omega
  · intro a ha
    rcases mem_append.mp ha with ha | ha
    · exact h.words a ha
    · rw [mem_singleton.mp ha]; exact ht

theorem Partial.Ok.addRedir {p : Partial} (h : p.Ok) {op : RedirOp} {t : Token} (ht : IsWord t)
    (hop : op ∉ p.cur.redirs.map Prod.fst) : (p.addRedir op t).Ok := by
  refine ⟨h.left, h.bound, h.words, ?_, ?_⟩
  · simp only [Partial.addRedir, map_append, map_cons, map_nil]
    exact nodup_append.mpr ⟨h.once, nodup_singleton op, fun a ha b hb =>
      fun e => hop (by rw [← mem_singleton.mp hb, ← e]; exact ha)⟩
  · intro r hr
    rcases mem_append.mp hr with hr | hr
    · exact h.targets r hr
    · rw [mem_singleton.mp hr]; exact ht

theorem Partial.toks_addArg {p : Partial} (hr : p.cur.redirs = []) (hbg : p.bg = false)
    (t : Token) : (p.addArg t).toks = p.toks ++ [t] := by
  simp [Partial.toks, Partial.addArg, CmdTree.toks, redirToks, hr, hbg]

theorem Partial.toks_addRedir {p : Partial} (hbg : p.bg = false) (op : RedirOp) (t : Token) :
    (p.addRedir op t).toks = p.toks ++ [op.tok, t] := by
  simp [Partial.toks, Partial.addRedir, CmdTree.toks, redirToks, hbg]

theorem Partial.Ok.tree_derives {p : Partial} (h : p.Ok) (hne : p.cur.args ≠ []) :
    Derives p.toks p.tree := by
  unfold Derives Partial.tree Partial.toks
  cases hl : p.left with
  | none => exact ⟨h.cur_wf hne, by simp [LineTree.toks]⟩
  | some l =>
    obtain ⟨hlw, hbg⟩ := h.left l hl
    exact ⟨⟨hlw, h.cur_wf hne⟩, by simp [LineTree.toks, hbg]⟩

/-- **The reader only returns derivations**: of the tokens already read followed by the rest. -/
theorem reader_sound (rest : List Token) (p : Partial) {t : LineTree} (hp : p.Ok)
    (hbg : p.bg = true → rest = []) (h : reader rest p = some t) : Derives (p.toks ++ rest) t := by
  have notBg : rest ≠ [] → p.bg = false := fun hne => by
    cases hb : p.bg with
    | false => rfl
    | true => exact absurd (hbg hb) hne
  fun_induction reader rest p with
  | case2 p hne =>
    cases h
    rw [append_nil]
    exact hp.tree_derives hne
  | case6 tok p op hop hne hnew file rest hfile ih =>
    have hb := notBg (by simp)
    have hb' : (p.addRedir op file).bg = false := hb
    have := ih (hp.addRedir hfile hnew) (by simp [hb']) h fun _ => hb'
    rwa [Partial.toks_addRedir hb, append_assoc, ← tok_of_redirOp hop] at this
  | case10 rest p hleft hne _ ih =>
    have hb := notBg (by simp)
    have hnone : p.left = none := by simpa using hleft
    have hok : (⟨some p.cur, ⟨[], []⟩, p.bg⟩ : Partial).Ok :=
      ⟨fun l hl => by cases hl; exact ⟨hp.cur_wf hne, hb⟩, by simp, by simp, by simp, by simp⟩
    have := ih hok (by simp [hb]) h fun _ => hb
    simpa [Partial.toks, CmdTree.toks, redirToks, hb, hnone] using this
  | case13 rest p hnil hleft _ _ ih =>
    have hb := notBg (by simp)
    have hnone : p.left = none := by simpa using hleft
    obtain rfl : rest = [] := by simpa using hnil
    have hok : ({ p with bg := true } : Partial).Ok :=
      ⟨fun l hl => absurd (hnone.symm.trans hl) (by simp), hp.bound, hp.words, hp.once, hp.targets⟩
    have := ih hok (fun _ => rfl) h fun hne => absurd rfl hne
    simpa [Partial.toks, hb] using this
  | case16 tok rest p hop hpipe hamp hred hlen ih =>
    have hb := notBg (by simp)
    have hb' : (p.addArg tok).bg = false := hb
    have hw : IsWord tok := isWord_iff.mpr ⟨hop, hpipe, hamp⟩
    have := ih (hp.addArg hw hlen) (by simp [hb']) h fun _ => hb'
    rwa [Partial.toks_addArg (by simpa using hred) hb, append_assoc] at this
  | _ => cases h

/-! ### Completeness -/

theorem reader_args : ∀ (ws : List Token) (p : Partial) (rest : List Token),
    (∀ w ∈ ws, IsWord w) → p.cur.redirs = [] → p.cur.args.length + ws.length ≤ maxWords →
    reader (ws ++ rest) p = reader rest { p with cur := ⟨p.cur.args ++ ws, []⟩ }
  | [], p, rest, _, hr, _ => by
    rw [nil_append, append_nil, ← hr]
  | w :: ws, p, rest, hw, hr, hlen => by
    obtain ⟨hop, hpipe, hamp⟩ := isWord_iff.mp (hw w mem_cons_self)
    rw [length_cons] at hlen
    rw [cons_append, reader, hop]
    simp only
    rw [if_neg hpipe, if_neg hamp, if_neg (by simp [hr]), if_neg (by omega),
      reader_args ws (p.addArg w) rest (fun x hx => hw x (mem_cons_of_mem w hx)) hr
        (by simp only [Partial.addArg, length_append, length_singleton]; omega)]
    simp [Partial.addArg]

theorem reader_redirs : ∀ (rs : List (RedirOp × Token)) (p : Partial) (rest : List Token),
    p.cur.args ≠ [] → ((p.cur.redirs ++ rs).map Prod.fst).Nodup → (∀ r ∈ rs, IsWord r.2) →
    reader (redirToks rs ++ rest) p =
      reader rest { p with cur := ⟨p.cur.args, p.cur.redirs ++ rs⟩ }
  | [], p, rest, _, _, _ => by simp [redirToks]
  | (op, file) :: rs, p, rest, hne, hnd, hw => by
    have hnew : op ∉ p.cur.redirs.map Prod.fst := by
      rw [map_append, map_cons] at hnd
      exact fun hm => (nodup_append.mp hnd).2.2 op hm op mem_cons_self rfl
    have hcons : redirToks ((op, file) :: rs) ++ rest = op.tok :: file :: (redirToks rs ++ rest) :=
      rfl
    rw [hcons, reader, redirOp_tok]
    simp only
    rw [if_neg hne, if_neg hnew, if_pos (hw (op, file) mem_cons_self),
      reader_redirs rs (p.addRedir op file) rest hne (by simpa [Partial.addRedir] using hnd)
        fun r hr => hw r (mem_cons_of_mem _ hr)]
    simp [Partial.addRedir]

theorem reader_cmd {c : CmdTree} (hc : c.Wf) (left : Option CmdTree) (bg : Bool)
    (rest : List Token) :
    reader (c.toks ++ rest) ⟨left, ⟨[], []⟩, bg⟩ = reader rest ⟨left, c, bg⟩ := by
  unfold CmdTree.toks
  rw [append_assoc, reader_args c.args _ _ hc.words rfl (by simpa using hc.bound),
    reader_redirs c.redirs _ _ (by simpa using hc.nonempty) (by simpa using hc.once) hc.targets]
  rfl

/-- **The reader finds every derivation.** -/
theorem reader_complete {T : List Token} {t : LineTree} (h : Derives T t) :
    reader T Partial.start = some t := by
  obtain ⟨hwf, rfl⟩ := h
  unfold Partial.start
  cases t with
  | simple c bg =>
    rw [LineTree.toks, reader_cmd hwf]
    have hne := hwf.nonempty
    cases bg with
    | false => simp [reader, hne, Partial.tree]
    | true =>
      rw [if_pos rfl, reader, show redirOp (str "&") = none by decide]
      simp only
      rw [if_neg (by decide), if_pos trivial]
      simp [reader, hne, Partial.tree]
  | pipe l r =>
    rw [LineTree.toks, reader_cmd hwf.1, reader, show redirOp (str "|") = none by decide]
    simp only
    rw [if_pos trivial, if_neg (by simp), if_neg hwf.1.nonempty, ← append_nil r.toks,
      reader_cmd hwf.2]
    simp [reader, hwf.2.nonempty, Partial.tree]

/-- **The reader is exact.** -/
theorem reader_iff {T : List Token} {t : LineTree} :
    reader T Partial.start = some t ↔ Derives T t := by
  refine ⟨fun h => ?_, reader_complete⟩
  have := reader_sound T Partial.start Partial.ok_start (by simp [Partial.start]) h
  simpa [Partial.toks, Partial.start, CmdTree.toks, redirToks] using this

theorem derives_unique {T : List Token} {t t' : LineTree} (h : Derives T t) (h' : Derives T t') :
    t = t' :=
  Option.some.inj ((reader_complete h).symm.trans (reader_complete h'))

end SystemProg.Shell

import SystemProg.Yash.Walk

/-!
# What the shell reads

`main` reads with `fgets` into a buffer of 202 bytes and passes every piece, less its newline, to
`parse_line` (`yash/src/main.c:41-66`), which rejects what is longer than 200 characters. A line
that is longer arrives in pieces. All but the last are rejected; the last is a string like any
other, and runs.

* **`parsed_iff`**: the strings that are parsed and not rejected for their length are the lines of
  the input of at most 200 characters exactly if no line is longer; a last line without newline may
  be, if its length is a multiple of 201.
* `tail_runs`: the tail of a line of 205 characters is run as a command.
-/

namespace SystemProg.Yash

open Text Shell Conc Data Conc.Logic List Option
open Yashd (Choice nl)

/-- The pieces among the results of `fgets`. -/
def got (reads : List Fgets) : List (List Byte) :=
  reads.filterMap fun r =>
    match r with
    | .line bs => some bs
    | _ => none

theorem got_append_line (reads : List Fgets) (bs : List Byte) :
    got (reads ++ [.line bs]) = got reads ++ [bs] := by
  rw [got, filterMap_append]
  rfl

/-! ## The buffer -/

/-- Whatever else arrives, the pieces of the input are those read and those of what is pending. -/
def World.Fed (w : World) : Prop :=
  .error ∉ w.reads → ∀ more, (w.closed = true → more = []) →
    pieces nl fgetsMax (w.heard ++ more) = got w.reads ++ pieces nl fgetsMax (w.pending ++ more)

variable {S : System} {w w' : World} {o : Op} {ch : Choice}

theorem World.Fed.congr (h : w.Fed) (hw : w'.heard = w.heard ∧ w'.pending = w.pending ∧
    w'.closed = w.closed ∧ w'.reads = w.reads) : w'.Fed := by
  obtain ⟨h1, h2, h3, h4⟩ := hw
  unfold World.Fed
  rw [h1, h2, h3, h4]
  exact h

theorem World.Fed.fgets {r : Fgets} (h : w.Fed) (hx : w.fgets ch = some (r, w')) : w'.Fed := by
  obtain ⟨⟨r, n⟩, hres, he⟩ := map_eq_some_iff.mp hx
  cases he
  intro herr more hmore
  have hw : Fgets.error ∉ w.reads := fun hm => herr (mem_append_left _ hm)
  have hr : r ≠ .error := fun hr => herr (mem_append_right _ (by simp [hr]))
  refine (h hw more hmore).trans ?_
  cases ch with
  | go =>
    simp only [World.fgetsRes, ite_none_right_eq_some] at hres
    obtain ⟨hready, hres⟩ := hres
    split at hres
    · rename_i hnil
      cases hres
      simp [got, hnil]
    · rename_i hnil
      cases hres
      have hcomplete : (nl ∈ w.pending.take fgetsMax ∨ fgetsMax ≤ w.pending.length) ∨
        more = [] := by
        rcases hready with h | h | h
        · exact .inl (.inl h)
        · exact .inl (.inr h)
        · exact .inr (hmore h)
      rw [pieces_append (by decide) hnil hcomplete, got_append_line, append_assoc]
      rfl
  | upTo k =>
    simp only [World.fgetsRes, ite_none_right_eq_some] at hres
    cases hres.2
    exact absurd rfl hr
  | _ => cases hres

theorem World.Fed.env (h : w.Fed) (e : Event) : (w.env e).Fed := by
  cases e with
  | input bs =>
    simp only [World.env]
    split
    · exact h
    · rename_i hopen
      intro herr more hmore
      have := h herr (bs ++ more) fun hc => absurd hc hopen
      rwa [← append_assoc, ← append_assoc] at this
  | close => exact fun herr more hmore => h herr more fun _ => hmore rfl
  | _ => exact h

theorem Reachable.fed (h : Reachable S) : S.world.Fed := by
  refine h.induction (P := fun S => S.world.Fed) (fun _ more _ => rfl) fun S e S' hS _ hstep => ?_
  rcases System.step_cases hstep with ⟨ch, rfl, hp⟩ | ⟨-, rfl⟩
  · rcases Prog.step_cases hp with ⟨o, -, r, -, hx, -⟩ | hw
    · by_cases ho : o = .fgets
      · subst ho
        exact hS.fgets hx
      · exact hS.congr ((exec_frame hx).2.1 ho)
    · exact hw ▸ hS
  · exact hS.env e

/-! ## The code -/

/-- What `fgets` has returned, and the strings passed to `parse_line`. -/
structure Feed where
  reads : List Fgets
  parsed : List (List Byte)

/-- `fgets` has returned. -/
def Feed.read (v : Feed) (r : Fgets) : Feed := { v with reads := v.reads ++ [r] }

/-- Every piece has been parsed, without its newline. -/
def Feed.Even (v : Feed) : Prop := v.parsed = (got v.reads).map Code.trim

/-- What each operation needs. -/
def feedPre : Op → Feed → Prop
  | .fgets, v => v.Even
  | _, _ => True

/-- What it does. -/
def feedAct : (o : Op) → Feed → o.Res → Feed → Prop
  | .fgets, v, r, v' => v' = v.read r
  | .parse line, v, _, v' => v' = { v with parsed := v.parsed ++ [line] }
  | _, v, _, v' => v' = v

/-- The operations of the loop of `main` itself. -/
def Op.reads : Op → Bool
  | .fgets | .parse _ => true
  | _ => false

/-- The logic of the input. -/
def feed : Logic calls Feed := sequential feedPre feedAct

namespace Code

open Prog

variable {α : Type} {v : Feed}

theorem feed_plain {p : C α} (hp : p.All fun o : Op => o.reads = false) (h : v.Even) :
    feed.wp p (fun _ => Feed.Even) v := by
  refine wp_inv (fun _ _ hr h => hr ▸ h) (hp.imp fun o ho v h => ?_) h
  cases o with
  | fgets | parse _ => cases ho
  | _ =>
    refine ⟨trivial, ?_⟩
    rintro _ _ rfl
    exact h

theorem reads_of_plain (o : Op) (h : o.Plain) : o.reads = false := by
  cases o with
  | fgets | parse _ => exact h.elim
  | _ => rfl

theorem feed_serve (call : Nat) (line : List Byte) (h : v.Even) :
    feed.wp (serve call line) (fun _ => Feed.Even) (v.read (.line line)) := by
  refine wp_seq (P := fun _ => Feed.Even) (seq_perform trivial ?_) fun r v h => ?_
  · rintro _ _ rfl
    show v.parsed ++ [trim line] = (got (v.reads ++ [.line line])).map trim
    rw [got_append_line, map_append, h]
    rfl
  · cases r with
    | ok job =>
      refine feed_plain (All.bind (all_builtinTry reads_of_plain (fun _ _ _ _ => rfl)) fun b => ?_)
        h
      split
      · trivial
      · exact all_execJob reads_of_plain
    | _ => exact seq_pure.mpr h

theorem feed_turnMain (call : Nat) (h : v.Even) :
    feed.wp (turnMain call) (Sum.elim (fun _ => Feed.Even) fun _ => Feed.Even) v := by
  refine wp_seq (feed_plain (all_jobsReap reads_of_plain fun _ _ _ _ => rfl) h) fun _ v h => ?_
  refine wp_seq (feed_plain (all_op rfl) h) fun _ v h => ?_
  refine wp_seq (P := fun r v' => v' = v.read r)
    (seq_perform h fun _ _ ha => ha) ?_
  rintro r _ rfl
  have hnone : r = .eof ∨ r = .error → (v.read r).Even := by
    rintro (rfl | rfl) <;> simpa [Feed.Even, Feed.read, got] using h
  cases r with
  | eof => exact seq_pure.mpr (hnone (.inl rfl))
  | error =>
    exact wp_seq (feed_plain (all_op rfl) (hnone (.inr rfl))) fun _ _ h => seq_pure.mpr h
  | line line => exact wp_seq (feed_serve call line h) fun _ _ h => seq_pure.mpr h

theorem feed_main : feed.wp main (fun _ => Feed.Even) ⟨[], []⟩ := by
  refine wp_seq (seq_iter (fun _ => Feed.Even) rfl fun c v h => feed_turnMain c h) fun _ v h => ?_
  exact feed_plain (All.bind (all_op rfl) fun _ => all_jobsKillAll reads_of_plain) h

end Code

/-! ## The shell -/

/-- The feed of a world. -/
def World.feed (w : World) : Feed := ⟨w.reads, w.parsed⟩

theorem feed_exec {r : o.Res} (h : exec ch o w = some (r, w')) : feedAct o w.feed r w'.feed := by
  cases o with
  | fgets =>
    obtain ⟨x, -, hx⟩ := map_eq_some_iff.mp h
    cases hx
    rfl
  | parse line =>
    cases h
    rfl
  | _ =>
    obtain ⟨-, hin, hparsed⟩ := exec_frame h
    show (⟨_, _⟩ : Feed) = ⟨_, _⟩
    rw [(hin (by simp)).2.2.2, hparsed (by simp)]

theorem feed_env (w : World) (e : Event) : (w.env e).feed = w.feed := by
  cases e with
  | input bs =>
    simp only [World.env]
    split <;> rfl
  | _ => rfl

/-- Where the shell reads, and when it has ended, every piece has been parsed. -/
theorem Reachable.even (h : Reachable S) (hat : S.next = some .fgets ∨ S.returned = true) :
    S.world.feed.Even := by
  have hup : S.Upholds feedPre feedAct Feed.Even World.feed :=
    h.upholds Code.feed_main (fun _ _ _ _ _ _ _ _ hx => feed_exec hx) fun _ _ _ => feed_env _ _
  rcases hat with ho | hr
  · exact hup.head ho
  · exact hup.final hr

theorem trim_eq {bs : List Byte} (h : 0 ∉ bs) : Code.trim bs = uncut nl bs := by
  rw [Code.trim, cstr_of_not_mem h]
  rfl

/-- **When every line that is short enough is parsed, and nothing else**: after the whole input has
been read, without interruption. -/
theorem parsed_iff (h : Reachable S) (hat : S.next = some .fgets ∨ S.returned = true)
    (hall : S.world.pending = []) (hgo : .error ∉ S.world.reads) (hnul : 0 ∉ S.world.heard) :
    S.world.parsed.filter (fun l => l.length ≤ yashMaxLine) =
        (frames nl S.world.heard).filter (fun l => l.length ≤ yashMaxLine) ↔
      (∀ l ∈ lines nl S.world.heard, l.length ≤ yashMaxLine) ∧
        ((remainder nl S.world.heard).length ≤ yashMaxLine ∨
          yashMaxLine + 1 ∣ (remainder nl S.world.heard).length) := by
  have hgot : got S.world.reads = pieces nl fgetsMax S.world.heard := by
    have := h.fed hgo [] fun _ => rfl
    rw [hall, append_nil, append_nil, pieces_nil, append_nil] at this
    exact this.symm
  have hparsed : S.world.parsed = (pieces nl fgetsMax S.world.heard).map (uncut nl) := by
    have : S.world.parsed = (got S.world.reads).map Code.trim := h.even hat
    rw [this, hgot]
    refine map_congr_left fun p hp => trim_eq fun h0 => hnul ?_
    exact mem_of_mem_pieces hp h0
  have hshort (l : List Byte) : l.length ≤ yashMaxLine ↔ l.length < fgetsMax := Nat.lt_succ_iff.symm
  simp only [hshort, hparsed]
  exact shortPieces_iff (by decide) S.world.heard

/-- The call of `fgets`. -/
def Op.isFgets : Op → Bool
  | .fgets => true
  | _ => false

theorem parsed_iff_two : ∃ S, Reachable S ∧ S.returned = true ∧ S.world.heard = str "jobs\nfg" ∧
    S.world.parsed.filter (fun l => l.length ≤ yashMaxLine) =
      (frames nl S.world.heard).filter (fun l => l.length ≤ yashMaxLine) := by
  obtain ⟨S, hS, hp⟩ := reachableIf_of_any (fun _ _ => true)
    ([.input (str "jobs\nfg"), .close] ++ steps 25 .go)
    (fun S => S.returned = true ∧ S.world.pending = [] ∧ .error ∉ S.world.reads ∧
      S.world.heard = str "jobs\nfg") (by decide +kernel)
  obtain ⟨hr, hall, hgo, hheard⟩ := of_decide_eq_true hp
  refine ⟨S, hS, hr, hheard, (parsed_iff hS (.inr hr) hall hgo (by rw [hheard]; decide)).mpr ?_⟩
  rw [hheard]
  exact ⟨by decide +kernel, .inl (by decide +kernel)⟩

/-- One line of 205 characters: its last four are a command, and it runs. -/
theorem tail_runs : ∃ S, Reachable S ∧ S.next = some .fgets ∧ S.world.pending = [] ∧
    .error ∉ S.world.reads ∧ lines nl S.world.heard = [List.replicate 201 120 ++ str "ls &"] ∧
    S.world.parsed = [List.replicate 201 120, str "ls &"] ∧
    S.world.jobs.map (fun e => e.job.cmdline) = [str "ls"] ∧
      S.world.procs.map Proc.pid = [100] := by
  obtain ⟨S, hS, hp⟩ := reachableIf_of_any (fun _ _ => true)
    ([.input (List.replicate 201 120 ++ str "ls &\n")] ++ steps 15 .go ++ [.run (.pid 100)] ++
      steps 11 .go)
    (fun S => S.next.any Op.isFgets ∧ S.world.pending = [] ∧ .error ∉ S.world.reads ∧
      S.world.heard = List.replicate 201 120 ++ str "ls &\n" ∧
      S.world.parsed = [List.replicate 201 120, str "ls &"] ∧
      S.world.jobs.map (fun e => e.job.cmdline) = [str "ls"] ∧ S.world.procs.map Proc.pid = [100])
    (by decide +kernel)
  obtain ⟨hnext, hall, hgo, hheard, hrest⟩ := of_decide_eq_true hp
  obtain ⟨o, ho, hf⟩ := (any_eq_true _ _).mp hnext
  have hfgets : o = .fgets := by
    cases o with
    | fgets => rfl
    | _ => cases hf
  refine ⟨S, hS, hfgets ▸ ho, hall, hgo, ?_, hrest⟩
  rw [hheard]
  decide +kernel

end SystemProg.Yash

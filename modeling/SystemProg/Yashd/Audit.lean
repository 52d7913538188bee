import SystemProg.Yashd.History
import SystemProg.Yashd.Log

/-!
# What the log says

The log file of the daemon, read back as text. Every session thread appends its entries with one
`write` each, so the file is the entries of the `log_command` calls in the order of those writes,
each with the peer of its session and the time of its call (`World.logFile`).

* `Reachable.audited`: in any interleaving, a session's log lags behind the commands it has accepted
  by at most the one it is about to log.
* `commands_loggable`: what is logged is a line `parse_line` accepts, without a newline.

Headline: `audit_log`. The file is a sequence of lines, and those that name a session's peer are
that session's accepted `CMD` lines, whole and in order.
-/

namespace SystemProg.Yashd

open Text Shell Conc Data Conc.Logic List

/-! ## Behind by one -/

/-- Only where a session is about to log a command is that command missing from its log. -/
def Talk.audit : Op → Talk → Prop
  | .log c, v => handled v.taken = v.cmds ++ [c]
  | _, v => v.cmds = handled v.taken

theorem audit_heeded : Heeded Talk.audit where
  take _ h := h.cmds
  fill _ h := h.cmds
  log _ _ h := h
  other o v _ _ hlog h := by
    unfold Talk.audit
    split
    · exact absurd rfl (hlog _)
    · exact h.cmds

variable {S : System} {sid : Nat}

/-- What a step does to a session's conversation: an operation of its own, its beginning, or
nothing. -/
theorem Reachable.talk_step {S' : System} {e : Event} (h : Reachable S)
    (hstep : S.step e = some S') (sid : Nat) :
    (∃ ch o k r, e = .run sid ch ∧ S.thread sid = some (.call o k) ∧
      exec sid ch o S.world = some (r, S'.world)) ∨
    (e = .accept sid ∧ S'.world.talk sid = ⟨[], [], []⟩) ∨
    (e ≠ .accept sid ∧ S'.world.talk sid = S.world.talk sid) := by
  rcases System.step_cases hstep with ⟨i, rfl, ht, rfl⟩ | ⟨i, ch, p, p', w', rfl, ht, hp, rfl⟩ |
    ⟨he, rfl⟩
  · by_cases hi : sid = i
    · subst hi
      -- nothing was logged for a session before there is one
      have hcmds : (S.world.setSess sid Sess.create).commands sid = [] := h.talks.idle sid ht
      refine .inr (.inl ⟨rfl, ?_⟩)
      show (S.world.setSess sid Sess.create).talk sid = _
      rw [World.talk, hcmds, sess_setSess_self]
      rfl
    · refine .inr (.inr ⟨by simpa using Ne.symm hi, ?_⟩)
      show (S.world.setSess i Sess.create).talk sid = _
      rw [World.talk, World.talk, show (S.world.setSess i Sess.create).sess sid = S.world.sess sid
        from if_neg hi]
      rfl
  · rcases Prog.step_cases hp with ⟨o, k, r, rfl, hx, -⟩ | rfl
    · by_cases hi : sid = i
      · subst hi
        exact .inl ⟨ch, o, k, r, rfl, ht, hx⟩
      · exact .inr (.inr ⟨by simp, (exec_talk hx).2 sid hi⟩)
    · exact .inr (.inr ⟨by simp, rfl⟩)
  · exact .inr (.inr ⟨he sid, env_talk he sid⟩)

/-- **A session's log, in any interleaving.** -/
theorem Reachable.audited (h : Reachable S) (sid : Nat) :
    S.Upholds sid Talk.audit Talk.act Caught (S.world.talk sid) := by
  refine h.induction (P := fun S => S.Upholds sid Talk.audit Talk.act Caught (S.world.talk sid))
    (fun _ h => by cases h) fun S e S' hS hup hstep => ?_
  refine hup.step hstep ?_ (fun ch o k r _ _ _ hx => (exec_talk hx).1) fun hacc hrun => ?_
  · rintro rfl ht
    rcases hS.talk_step hstep sid with ⟨ch, o, k, r, he, -⟩ | ⟨-, hnew⟩ | ⟨he, -⟩
    · cases he
    · rw [hnew]
      exact Code.heeded_sessionMain audit_heeded
    · exact absurd rfl he
  · rcases hS.talk_step hstep sid with ⟨ch, o, k, r, he, ht, -⟩ | ⟨he, -⟩ | ⟨-, hsame⟩
    · exact absurd ht (hrun ch o k he)
    · exact absurd he hacc
    · exact hsame

/-- At most one accepted command is not in the log. -/
def Talk.Behind (v : Talk) : Prop := ∃ l, handled v.taken = v.cmds ++ l ∧ l.length ≤ 1

theorem Talk.behind_of_eq {v : Talk} (h : v.cmds = handled v.taken) : v.Behind :=
  ⟨[], by rw [h, append_nil], Nat.zero_le 1⟩

/-- Taking a line can add one command, and logging it removes it. -/
theorem behind_of_act {o : Op} {v v' : Talk} {r : o.Res} (hpre : Talk.audit o v)
    (hact : Talk.act o v r v') : v'.Behind := by
  cases o with
  | log c =>
    cases hact
    exact Talk.behind_of_eq (Eq.symm hpre)
  | takeLine site =>
    have hpre : v.cmds = handled v.taken := hpre
    cases r with
    | none =>
      cases hact
      exact Talk.behind_of_eq hpre
    | some line =>
      obtain ⟨b, rfl⟩ := hact
      cases site with
      | readsocket =>
        refine ⟨(commandOf line).toList, ?_, ?_⟩
        · rw [handled_append, hpre]
        · cases commandOf line <;> simp
      | pump =>
        refine Talk.behind_of_eq (hpre.trans ?_)
        rw [handled, handled, filterMap_append]
        exact (append_nil _).symm
  | write out bs =>
    cases r with
    | wrote n =>
      cases hact
      exact Talk.behind_of_eq hpre
    | fail e =>
      cases hact
      exact Talk.behind_of_eq hpre
  | _ =>
    cases hact
    exact Talk.behind_of_eq hpre

theorem Reachable.behind (h : Reachable S) (sid : Nat) : (S.world.talk sid).Behind := by
  refine h.induction (P := fun S => (S.world.talk sid).Behind) (Talk.behind_of_eq rfl)
    fun S e S' hS hbehind hstep => ?_
  rcases hS.talk_step hstep sid with ⟨ch, o, k, r, -, ht, hx⟩ | ⟨-, hnew⟩ | ⟨-, hsame⟩
  · exact behind_of_act ((hS.audited sid).head ht) (exec_talk hx).1
  · rw [hnew]
    exact Talk.behind_of_eq rfl
  · rw [hsame]
    exact hbehind

/-! ## What is logged -/

/-- No line taken from a connection has a newline. -/
theorem Reachable.nl_not_mem_taken (h : Reachable S) (sid : Nat) :
    ∀ t ∈ (S.world.talk sid).taken, nl ∉ t.line := by
  refine h.induction (P := fun S => ∀ t ∈ (S.world.talk sid).taken, nl ∉ t.line)
    (fun t ht => by cases ht) fun S e S' hS ih hstep => ?_
  rcases hS.talk_step hstep sid with ⟨ch, o, k, r, -, -, hx⟩ | ⟨-, hnew⟩ | ⟨-, hsame⟩
  · have hact := (exec_talk hx).1
    cases o with
    | takeLine site =>
      cases r with
      | none =>
        rw [show S'.world.talk sid = _ from hact]
        exact ih
      | some line =>
        obtain ⟨b, hb⟩ := hact
        obtain ⟨buf, htake, -⟩ := (exec_local hx).own
        obtain ⟨raw, hraw, -, rfl⟩ := bufTakeLine_inv le_rfl htake
        rw [hb]
        intro t ht
        rcases mem_append.mp ht with ht | ht
        · exact ih t ht
        · rw [mem_singleton.mp ht]
          refine fun hm => hraw ?_
          unfold stripCr at hm
          split at hm
          · exact (List.dropLast_prefix _).subset hm
          · exact hm
    | write out bs =>
      cases r <;>
      · rw [show S'.world.talk sid = _ from hact]
        exact ih
    | _ =>
      rw [show S'.world.talk sid = _ from hact]
      exact ih
  · rw [hnew]
    simp
  · rw [hsame]
    exact ih

/-- What `log_command` prints whole, and as one line. -/
structure Loggable (c : List Byte) : Prop where
  nonempty : c ≠ []
  length_le : c.length ≤ yashMaxLine
  nl_not_mem : nl ∉ c

theorem loggable_of_commandOf {line c : List Byte} (hnl : nl ∉ line) (h : commandOf line = some c) :
    Loggable c := by
  simp only [commandOf] at h
  split at h
  · split at h
    · rename_i job hjob
      cases h
      refine ⟨fun h0 => ?_, (parseLine_ok hjob).1, fun hm => hnl ?_⟩
      · rw [h0] at hjob
        exact absurd hjob (by rw [show parseLine (some []) = .empty by decide]; simp)
      · exact (List.takeWhile_prefix _).subset (mem_of_mem_drop hm)
    · cases h
  · cases h

theorem commands_loggable (h : Reachable S) {e : Nat × List Byte} (he : e ∈ S.world.logged) :
    Loggable e.2 := by
  have hmem : e.2 ∈ S.world.commands e.1 :=
    mem_map_of_mem (mem_filter.mpr ⟨he, by simp⟩)
  obtain ⟨l, hl, -⟩ := h.behind e.1
  have hhandled : e.2 ∈ handled (S.world.talk e.1).taken := by
    rw [hl]
    exact mem_append_left l hmem
  obtain ⟨t, ht, hc⟩ := mem_filterMap.mp hhandled
  rw [Option.ite_none_right_eq_some] at hc
  exact loggable_of_commandOf (h.nl_not_mem_taken e.1 t ht) hc.2

/-! ## The file -/

/-- The log file: what the calls of `log_command` have written, in the order of their writes. The
`i`-th of them printed the time `clock i`. -/
def World.logFile (w : World) (peer : Nat → Peer) (clock : Nat → Tm) : List Byte :=
  (w.logged.mapIdx fun i e => logCommand true (peer e.1) (some (clock i)) e.2).flatten

/-- The entries of a log file. -/
def entries (file : List Byte) : List (List Byte) := lines nl file

/-- The command lines of the entries that name a peer. -/
def entriesOf (peer : Peer) (file : List Byte) : List (List Byte) :=
  ((entries file).filter fun e => identity e = peer.text).map commandText

section File

variable {peer : Nat → Peer} {clock : Nat → Tm}

/-- The file is the entries, each with its newline. -/
theorem logFile_eq (h : Reachable S) : S.world.logFile peer clock =
    (S.world.logged.mapIdx fun i e => entryBody (peer e.1) (clock i) e.2).flatMap (· ++ [nl]) := by
  rw [World.logFile, flatMap_def]
  refine congrArg List.flatten (ext_getElem? fun i => ?_)
  rw [getElem?_map, getElem?_mapIdx, getElem?_mapIdx, Option.map_map]
  refine Option.map_congr fun e he => ?_
  have hlog := commands_loggable h (mem_of_getElem? he)
  exact logCommand_eq hlog.nonempty hlog.length_le

theorem entries_logFile (h : Reachable S) : entries (S.world.logFile peer clock) =
    S.world.logged.mapIdx fun i e => entryBody (peer e.1) (clock i) e.2 := by
  rw [entries, logFile_eq h, ← append_nil (List.flatMap _ _), lines_of_terminated]
  · rw [lines_of_not_mem not_mem_nil, append_nil]
  · intro b hb
    obtain ⟨i, hi, rfl⟩ := mem_mapIdx.mp hb
    exact nl_not_mem_entryBody (commands_loggable h (getElem_mem hi)).nl_not_mem

/-- Selecting and reading the items of a numbered list, where neither depends on the numbers. -/
theorem map_filter_mapIdx {α β γ : Type} {p : β → Bool} {g : β → γ} {p' : α → Bool} {g' : α → γ} :
    ∀ {l : List α} {f : Nat → α → β}, (∀ i, ∀ a ∈ l, p (f i a) = p' a ∧ g (f i a) = g' a) →
      ((l.mapIdx f).filter p).map g = (l.filter p').map g'
  | [], _, _ => rfl
  | a :: l, f, h => by
    have ih := map_filter_mapIdx (l := l) (f := fun i => f (i + 1))
      fun i b hb => h (i + 1) b (mem_cons_of_mem a hb)
    obtain ⟨hp, hg⟩ := h 0 a mem_cons_self
    rw [mapIdx_cons, filter_cons, filter_cons, hp]
    split
    · rw [map_cons, map_cons, hg, ih]
    · exact ih

/-- What is logged was logged by a session that exists. -/
theorem Reachable.thread_of_logged (h : Reachable S) {e : Nat × List Byte}
    (he : e ∈ S.world.logged) : S.thread e.1 ≠ none := by
  intro hnone
  have hmem : e.2 ∈ S.world.commands e.1 :=
    mem_map_of_mem (mem_filter.mpr ⟨he, by simp⟩)
  rw [h.talks.idle e.1 hnone] at hmem
  cases hmem

/-- Sessions that exist have different peers. -/
def System.DistinctPeers (S : System) (peer : Nat → Peer) : Prop :=
  ∀ i j, S.thread i ≠ none → S.thread j ≠ none → peer i = peer j → i = j

/-- The entries that name a session's peer are those it has logged. -/
theorem entriesOf_logFile (h : Reachable S) (hpeer : S.DistinctPeers peer)
    (hsid : S.thread sid ≠ none) :
    entriesOf (peer sid) (S.world.logFile peer clock) = S.world.commands sid := by
  rw [entriesOf, entries_logFile h, World.commands]
  refine map_filter_mapIdx fun i e he => ⟨?_, commandText_entry _ _ _⟩
  rw [identity_entry]
  have hiff : (peer e.1).text = (peer sid).text ↔ e.1 = sid := by
    refine ⟨fun ht => ?_, fun hi => by rw [hi]⟩
    exact hpeer e.1 sid (h.thread_of_logged he) hsid (Peer.text_injective ht)
  simp only [hiff]

end File

/-- `log` is a session's audit trail: the `CMD` lines taken at the prompt that `parse_line` accepts,
but for one that the session is just about to log. -/
structure System.Trail (S : System) (sid : Nat) (log : List (List Byte)) : Prop where
  behind : ∃ l, handled (S.world.sess sid).taken = log ++ l ∧ l.length ≤ 1
  logging : ∀ c k, S.thread sid = some (.call (.log c) k) →
    handled (S.world.sess sid).taken = log ++ [c]
  current : ∀ o k, S.thread sid = some (.call o k) → (∀ c, o ≠ .log c) →
    log = handled (S.world.sess sid).taken
  ended : S.thread sid = some (.ret ()) → log = handled (S.world.sess sid).taken

theorem Reachable.trail (h : Reachable S) (sid : Nat) : S.Trail sid (S.world.commands sid) where
  behind := h.behind sid
  logging _ _ ht := (h.audited sid).head ht
  current o k ht hlog := by
    have := (h.audited sid).head ht
    unfold Talk.audit at this
    split at this
    · exact absurd rfl (hlog _)
    · exact this
  ended ht := ((h.audited sid).returned ht).cmds

/-- **The audit log is complete and truthful.** Whatever the interleaving, the log file is a
sequence of entries, each ended by the only newline in it and each naming the peer of a session. The
entries that name a given session's peer carry, whole and in order, exactly the lines that were
taken at that session's prompt, are `CMD` messages and are accepted by `parse_line`; a line so taken
is missing only until the session, which does nothing else first, has logged it. -/
theorem audit_log (h : Reachable S) (peer : Nat → Peer) (clock : Nat → Tm)
    (hpeer : S.DistinctPeers peer) :
    S.world.logFile peer clock =
      (entries (S.world.logFile peer clock)).flatMap (fun e => e ++ [nl]) ∧
    (∀ e ∈ entries (S.world.logFile peer clock), nl ∉ e ∧
      ∃ sid, S.thread sid ≠ none ∧ identity e = (peer sid).text) ∧
    ∀ sid, S.thread sid ≠ none →
      S.Trail sid (entriesOf (peer sid) (S.world.logFile peer clock)) := by
  refine ⟨?_, fun e he => ⟨not_mem_of_mem_lines he, ?_⟩, fun sid hsid => ?_⟩
  · rw [entries_logFile h]
    exact logFile_eq h
  · rw [entries_logFile h] at he
    obtain ⟨i, hi, rfl⟩ := mem_mapIdx.mp he
    exact ⟨_, h.thread_of_logged (getElem_mem hi), identity_entry _ _ _⟩
  · rw [entriesOf_logFile h hpeer hsid]
    exact h.trail sid

/-- Two sessions: one sends a control message, a line that `parse_line` rejects and a command, the
other a command. -/
def twoSessionsRun : List Event :=
  [.accept 0, .accept 1, .peerSend 0 (str "CMD jobs\n"),
    .peerSend 1 (str "CTL c\nCMD | ls\nCMD bg\n")] ++
    steps 1 35 (.upTo 4095) ++ steps 0 16 (.upTo 4095)

/-- Clients on the same host. -/
def localPeer (sid : Nat) : Peer := peerFromTcp 127 0 0 1 (UInt16.ofNat (7813 + sid))

/-- Sep 18 10:02:55. -/
def sampleTime : Tm := ⟨8, 18, 10, 2, 55, by decide, by decide, by decide, by decide⟩

/-- A session exists only once it has been accepted. -/
theorem accept_mem_of_run {evs : List Event} {i : Nat} :
    ∀ {S S' : System}, S.run evs = some S' → S'.thread i ≠ none →
      S.thread i ≠ none ∨ .accept i ∈ evs := by
  induction evs with
  | nil =>
    intro S S' h hi
    cases h
    exact .inl hi
  | cons e evs ih =>
    intro S S' h hi
    rw [System.run, foldlM_cons] at h
    obtain ⟨S₁, hstep, h⟩ := Option.bind_eq_some_iff.mp h
    rcases ih h hi with hi | hi
    · rcases System.step_cases hstep with ⟨sid, rfl, ht, rfl⟩ |
        ⟨sid, ch, p, p', w', rfl, ht, hp, rfl⟩ | ⟨he, rfl⟩
      · by_cases hs : i = sid
        · exact .inr (hs ▸ mem_cons_self)
        · rw [System.setThread_of_ne _ _ hs] at hi
          exact .inl hi
      · by_cases hs : i = sid
        · exact .inl (by rw [hs, ht]; simp)
        · rw [System.setThread_of_ne _ _ hs] at hi
          exact .inl hi
      · exact .inl hi
    · exact .inr (mem_cons_of_mem e hi)

theorem audit_log_two :
    ∃ S, Reachable S ∧ S.DistinctPeers localPeer ∧ S.thread 1 ≠ none ∧
      S.world.logged = [(1, str "bg"), (0, str "jobs")] ∧
      S.Trail 1 (entriesOf (localPeer 1) (S.world.logFile localPeer fun _ => sampleTime)) := by
  have hrun : (System.init.run twoSessionsRun).isSome := by decide +kernel
  have hreach := reachable_get hrun
  have hsids : ∀ i, ((System.init.run twoSessionsRun).get hrun).thread i ≠ none → i = 0 ∨
    i = 1 := by
    intro i hi
    rcases accept_mem_of_run (Option.some_get hrun).symm hi with h | h
    · exact absurd rfl h
    · simpa [twoSessionsRun, steps] using h
  have hpeers : ((System.init.run twoSessionsRun).get hrun).DistinctPeers localPeer := by
    intro i j hi hj he
    rcases hsids i hi with rfl | rfl <;> rcases hsids j hj with rfl | rfl
    · rfl
    · exact absurd (congrArg Peer.port he) (by decide)
    · exact absurd (congrArg Peer.port he) (by decide)
    · rfl
  have hone : ((System.init.run twoSessionsRun).get hrun).thread 1 ≠ none := by
    intro h
    cases h
  exact ⟨_, hreach, hpeers, hone, rfl, (audit_log hreach localPeer _ hpeers).2.2 1 hone⟩

end SystemProg.Yashd

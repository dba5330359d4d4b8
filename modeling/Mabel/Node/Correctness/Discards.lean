import Mabel.Node.Loaded
import Mabel.Node.Correctness.FirstSeen
import Mabel.Node.Noting
import Mabel.Node.Quiet
import Mabel.Node.Sync

/-!
# Which local events a query of the witnesses drops

Asking a witness drops local events in one place only, where the chain it serves and the
local copy part. Where the two part at a conflict, every dropped event lies at or past it.
A witness that misreports its head and serves a proper prefix of the local copy brings the
query to the same place with no conflict at all, and the events past the prefix are dropped.
-/

namespace Mabel.Node

open Wire Proto Net Program

variable {C : Crypto}

/-! ## Shared prefixes -/

section SharedPrefix

/-- Equal first events are shared, and what follows is compared. -/
theorem sharedPrefix_cons (one other : Bytes) (left right : List Bytes) :
    sharedPrefix (one :: left) (other :: right) =
      if one = other then sharedPrefix left right + 1 else 0 := by
  rw [sharedPrefix, List.zip_cons_cons, List.takeWhile_cons]
  by_cases h : one = other
  · simp [h, sharedPrefix]
  · simp [h]

theorem sharedPrefix_nil_right (left : List Bytes) : sharedPrefix left [] = 0 := by
  simp [sharedPrefix]

/-- What two runs share is no longer than either. -/
theorem sharedPrefix_le (left right : List Bytes) :
    sharedPrefix left right ≤ min left.length right.length := by
  rw [sharedPrefix, ← List.length_zip]
  exact (List.takeWhile_sublist _).length_le

/-- Where neither run ends, the two differ right past what they share. -/
theorem sharedPrefix_differs (left : List Bytes) : ∀ {right : List Bytes},
    sharedPrefix left right < left.length → sharedPrefix left right < right.length →
    left[sharedPrefix left right]? ≠ right[sharedPrefix left right]? := by
  induction left with
  | nil => exact fun h => absurd h (Nat.not_lt_zero _)
  | cons one left ih =>
    intro right hleft hright
    cases right with
    | nil => exact absurd hright (Nat.not_lt_zero _)
    | cons other right =>
      rw [sharedPrefix_cons] at hleft hright ⊢
      by_cases h : one = other
      · rw [if_pos h] at hleft hright ⊢
        simpa using ih (by simpa using hleft) (by simpa using hright)
      · rw [if_neg h]
        simpa using h

/-- A run that ends where the shared prefix does is a prefix of the other. -/
theorem sharedPrefix_eq_length_iff (left : List Bytes) : ∀ right : List Bytes,
    sharedPrefix left right = right.length ↔ right <+: left := by
  induction left with
  | nil =>
    intro right
    rw [List.prefix_nil]
    simp [sharedPrefix, eq_comm]
  | cons one left ih =>
    intro right
    cases right with
    | nil => simp [sharedPrefix_nil_right]
    | cons other right =>
      rw [sharedPrefix_cons, List.length_cons, List.cons_prefix_cons, ← ih right]
      by_cases h : one = other
      · simp [h]
      · simp [h, Ne.symm h]

/-- Two chains share the same in either order. -/
theorem sharedPrefix_comm (left : List Bytes) : ∀ right,
    sharedPrefix left right = sharedPrefix right left := by
  induction left with
  | nil => exact fun right => by simp [sharedPrefix]
  | cons one left ih =>
    intro right
    cases right with
    | nil => simp [sharedPrefix]
    | cons other right =>
      rw [sharedPrefix_cons, sharedPrefix_cons, ih right]
      by_cases h : one = other
      · rw [if_pos h, if_pos h.symm]
      · rw [if_neg h, if_neg (Ne.symm h)]

/-- Up to what they share, two runs are the same. -/
theorem take_sharedPrefix (left : List Bytes) : ∀ right,
    left.take (sharedPrefix left right) = right.take (sharedPrefix left right) := by
  induction left with
  | nil => exact fun right => by simp [sharedPrefix]
  | cons one left ih =>
    intro right
    cases right with
    | nil => simp [sharedPrefix_nil_right]
    | cons other right =>
      rw [sharedPrefix_cons]
      by_cases h : one = other
      · rw [if_pos h, List.take_succ_cons, List.take_succ_cons, h, ih right]
      · rw [if_neg h]
        rfl

end SharedPrefix

/-! ## What loading reads -/

/-- The events a ledger loads are those of its files. -/
theorem run_load_events {store : LedgerStore C} {now : Nat} {files files' : LedgerFiles C}
    {loaded : LoadedLedger C} (h : run FileOp.exec (load store now) files = (.ok loaded, files'))
    {k : Nat} {bytes : Bytes} (hk : loaded.events[k]? = some bytes) :
    files.events.get? k = some bytes := by
  obtain ⟨stored, t, hread, h⟩ := run_bind_eq_ok.mp h
  obtain ⟨folded, t', hlift, h⟩ := run_bind_eq_ok.mp h
  obtain ⟨hfold, rfl⟩ := run_lift_eq_ok.mp hlift
  obtain ⟨_, t', hempty, h⟩ := run_bind_eq_ok.mp h
  obtain ⟨hloaded, -⟩ := Prod.mk.inj h
  obtain rfl := Except.ok.inj hloaded
  rw [LoadedLedger.fold_events hfold, List.getElem?_map, Option.map_eq_some_iff] at hk
  obtain ⟨event, hevent, rfl⟩ := hk
  obtain ⟨head, u, hhead, hread⟩ := run_bind_eq_ok.mp (run_mapReject_eq_ok.mp hread)
  obtain ⟨-, hevents, -⟩ := run_head_eq_ok hhead
  cases head with
  | none =>
    obtain ⟨hstored, -⟩ := Prod.mk.inj hread
    obtain rfl := Except.ok.inj hstored
    simp at hevent
  | some head =>
    have := ((run_readCount_eq_ok.mp hread).2.event k event hevent).2
    rwa [Nat.zero_add, hevents] at this

/-! ## Programs that leave the event files alone -/

/-- The operation changes no event file. -/
def FileOp.SparesEvents (op : FileOp C) : Prop := ∀ files, (op.exec files).2.events = files.events

/-- A looking step spares the events. -/
theorem FileOp.Looks.sparesEvents {op : FileOp C} (h : op.Looks) : op.SparesEvents := by
  intro files
  cases op with
  | createDir | readHead | writeHead | removeHead | listEvents | readEvent | readMeta | writeMeta
  | listForks | readFork | writeFork => rfl
  | writeEvent seq bytes => exact h.elim
  | removeEvent seq => exact h.elim

/-- Code that spares the events leaves them. -/
theorem events_of_spares {ε α : Type} {p : Program (FileOp C) FileOp.Reply ε α}
    (h : p.Performs FileOp.SparesEvents) (files : LedgerFiles C) :
    (run FileOp.exec p files).2.events = files.events :=
  h.keeps (I := fun after => after.events = files.events)
    (fun _ hop after hafter => (hop after).trans hafter) files rfl

/-- The operation changes no event file of any ledger. -/
def StoreOp.SparesEvents (op : StoreOp C) : Prop :=
  ∀ s l, ((op.exec s).2.filesOf l).events = (s.filesOf l).events

/-- A sparing step on one ledger spares every ledger's events. -/
theorem FileOp.SparesEvents.file {op : FileOp C} (h : op.SparesEvents) (ledger : LedgerId) :
    (StoreOp.file ledger op).SparesEvents := by
  intro s l
  change ((s.withFiles ledger (op.exec (s.filesOf ledger)).2).filesOf l).events = _
  rw [LedgerStorage.filesOf_withFiles]
  by_cases hl : l = ledger
  · rw [if_pos hl, h, hl]
  · rw [if_neg hl]

/-- Code that spares every ledger's events leaves them. -/
theorem events_of_sparesAll {ε α : Type} {p : OnNode C ε α}
    (h : p.Performs StoreOp.SparesEvents) (s : LedgerStorage C) (l : LedgerId) :
    ((Program.run StoreOp.exec p s).2.filesOf l).events = (s.filesOf l).events :=
  h.keeps (I := fun after => (after.filesOf l).events = (s.filesOf l).events)
    (fun _ hop after hafter => (hop after l).trans hafter) s rfl

/-- Telling the index changes no event file. -/
theorem note_spares {ε : Type} (setup : Setup) (ledger : LedgerId) (clock : LoadClock) :
    (note setup ledger clock : OnNode C ε Unit).Performs StoreOp.SparesEvents := by
  refine .bind (.attempt (.bind (performs_onLedger (loadEntry_looks _ _)
    fun _ hop => hop.sparesEvents.file ledger) fun entry => ?_)) fun _ => .pure _
  refine .bind (.ask fun _ _ => rfl) fun _ => .andFinally ?_ fun _ _ => rfl
  refine .bind (.ask fun _ _ => rfl) fun index => .bind (.ask fun _ _ => rfl) fun _ => ?_
  exact .ite (.bind (.ask fun _ _ => rfl) fun _ => .pure _) (.pure _)

/-- Rebuilding the head spares the events. -/
theorem rebuildHead_spares (store : LedgerStore C) (now : Nat) :
    (store.rebuildHead now).Performs FileOp.SparesEvents := by
  refine .bind (.ask fun _ => rfl) fun seqs => ?_
  cases contiguousLast seqs with
  | none => exact .pure _
  | some last =>
    exact .bind (.bind (.ask fun _ => rfl) fun _ => .lift _) fun _ => .bind (.lift _) fun _ =>
      .bind (.ask fun _ => rfl) fun _ => .pure _

/-- Loading spares the events. -/
theorem load_spares (store : LedgerStore C) (now : Nat) :
    (load store now).Performs FileOp.SparesEvents :=
  .bind ((((store.readFrom_onHead now 0 none).mono fun _ => FileOp.OnHead.looks).mono
    fun _ => FileOp.Looks.sparesEvents).mapReject _) fun _ => .bind (.lift _) fun _ =>
      .bind (.lift _) fun _ => .pure _

/-! ## Storing -/

/-- The event files of a ledger hold what they held, and nothing new from a sequence on. -/
structure Lengthened (bound : Nat) (files files' : LedgerFiles C) : Prop where
  kept : ∀ k bytes, files.events.get? k = some bytes → files'.events.get? k = some bytes
  bounded : ∀ k, bound ≤ k → files'.events.get? k = files.events.get? k

namespace Lengthened

variable {bound : Nat} {files files' files'' : LedgerFiles C}

theorem of_events (h : files'.events = files.events) : Lengthened bound files files' :=
  ⟨fun _ _ hk => by rw [h]; exact hk, fun _ _ => by rw [h]⟩

/-- What was lengthened twice was lengthened. -/
theorem trans (h : Lengthened bound files files') (h' : Lengthened bound files' files'') :
    Lengthened bound files files'' :=
  ⟨fun k bytes hk => h'.kept k bytes (h.kept k bytes hk),
    fun k hk => (h'.bounded k hk).trans (h.bounded k hk)⟩

end Lengthened

/-- An append extends the event files by its batch at most. -/
theorem append_extends (store : LedgerStore C) (rebuilt now : Nat) (batch : List NewEvent)
    {bound : Nat} (hbound : ∀ event ∈ batch, event.seq < bound) (files : LedgerFiles C) :
    (store.append rebuilt now batch).Ensures FileOp.exec files
      fun _ files' => Lengthened bound files files' := by
  have hlooks : (store.head rebuilt).Performs FileOp.SparesEvents :=
    (store.head_looks rebuilt).mono fun _ => FileOp.Looks.sparesEvents
  cases batch with
  | nil => exact .of_events (events_of_spares hlooks files)
  | cons first rest =>
    rcases append_cases store rebuilt now (List.cons_ne_nil first rest) files with
      ⟨e, -, hevents⟩ | ⟨head, hok⟩
    · exact .of_events hevents
    rcases hrun : run FileOp.exec (store.append rebuilt now (first :: rest)) files with ⟨r, after⟩
    rw [hrun] at hok
    obtain rfl : r = .ok (some head) := hok
    obtain ⟨written, t, hwrite, -⟩ := run_bind_eq_ok.mp hrun
    rw [LedgerStore.writeEvents, File.run_createDir_bind] at hwrite
    obtain ⟨cached, t, hhead, hwrite⟩ := run_bind_eq_ok.mp hwrite
    obtain ⟨_, t', hchecked, -⟩ := run_bind_eq_ok.mp hwrite
    obtain ⟨-, hevents, -⟩ := run_head_eq_ok hhead
    obtain ⟨x, hchecks, hiff⟩ := run_checkEvents store t (first :: rest)
      (cached.elim 0 fun head => head.seq + 1)
    have hoffered := hiff.mp (congrArg Prod.fst (hchecks.symm.trans hchecked))
    have hafter := congrArg Prod.snd (hrun.symm.trans (run_append now hhead hoffered))
    dsimp only at hafter
    rw [Ensures, hrun, hafter]
    have hseqs := hoffered.seqs
    constructor
    · intro k bytes hk
      rw [← hevents] at hk
      dsimp only
      rw [get?_write hseqs k]
      split_ifs with hin
      · obtain ⟨event, hevent⟩ : ∃ event, (first :: rest)[k - (cached.elim 0 fun head =>
            head.seq + 1)]? = some event := ⟨_, List.getElem?_eq_getElem (by omega)⟩
        rw [hevent, Option.map_some]
        exact congrArg some (hoffered.agrees hevent (by rwa [Nat.add_sub_cancel' hin.1])).symm
      · exact hk
    · intro k hk
      dsimp only
      rw [get?_write hseqs k, hevents, if_neg]
      rintro ⟨hlow, hhigh⟩
      obtain ⟨event, hevent⟩ : ∃ event, (first :: rest)[k - (cached.elim 0 fun head =>
          head.seq + 1)]? = some event := ⟨_, List.getElem?_eq_getElem (by omega)⟩
      have := hseqs _ event hevent
      have := hbound event (List.mem_of_getElem? hevent)
      omega

/-- A served batch is numbered on from its first event. -/
theorem servedBatch_seqs (events : List Bytes) : ∀ {seq : Nat} {batch : List NewEvent},
    servedBatch C seq events = .ok batch →
    batch.length = events.length ∧ ∀ event ∈ batch, event.seq < seq + events.length := by
  induction events with
  | nil =>
    intro seq batch h
    obtain rfl := Except.ok.inj h
    simp
  | cons bytes events ih =>
    intro seq batch h
    obtain ⟨id, -, h⟩ := Outcome.bind_eq_ok.mp h
    obtain ⟨rest, hrest, h⟩ := Outcome.bind_eq_ok.mp h
    obtain rfl := Except.ok.inj h
    obtain ⟨hlength, hseqs⟩ := ih hrest
    refine ⟨by simp [hlength], fun event hevent => ?_⟩
    rw [List.length_cons]
    rcases List.mem_cons.mp hevent with rfl | hmem
    · dsimp only
      omega
    · have := hseqs event hmem
      omega

/-- Comparing with what is stored spares the events. -/
theorem compareStored_spares (store : LedgerStore C) (events : List Bytes) : ∀ seq,
    (compareStored store seq events).Performs FileOp.SparesEvents := by
  induction events with
  | nil => exact fun _ => .pure _
  | cons bytes events ih =>
    exact fun seq => .bind (.mapReject (.bind (.ask fun _ => rfl) fun _ => .lift _) _) fun _ =>
      .bind (.lift _) fun _ => ih (seq + 1)

/-- Noting first sight spares the events. -/
theorem noteFirstSeen_spares (source : Option (EndpointId C)) (now : Nat) :
    (LedgerStore.noteFirstSeen source now).Performs FileOp.SparesEvents := by
  refine .bind (.ask fun _ => rfl) fun noted => ?_
  cases noted with
  | some noted => exact .pure _
  | none => exact .bind (.ask fun _ => rfl) fun _ => .bind (.ask fun _ => rfl) fun _ => .pure _

/-- A program that spares the event files, before one that extends them. -/
theorem extends_after {ε α β : Type} {bound : Nat} {files : LedgerFiles C}
    {p : Program (FileOp C) FileOp.Reply ε α} {f : α → Program (FileOp C) FileOp.Reply ε β}
    (hp : p.Performs FileOp.SparesEvents)
    (hf : ∀ a t, (f a).Ensures FileOp.exec t fun _ files' => Lengthened bound t files') :
    (p >>= f).Ensures FileOp.exec files fun _ files' => Lengthened bound files files' := by
  have hspares : p.Ensures FileOp.exec files fun _ t => t.events = files.events :=
    events_of_spares hp files
  refine hspares.bind (fun a t ht => (hf a t).mono fun _ _ h => (Lengthened.of_events ht).trans h)
    fun e t ht => .of_events ht

/-- Storing a served run extends the event files by that run at most. -/
theorem storeFiles_extends (store : LedgerStore C) (call : StoreCall C) (files : LedgerFiles C) :
    (storeFiles store call).Ensures FileOp.exec files
      fun _ files' => Lengthened call.events.length files files' := by
  refine extends_after (((store.head_looks _).mono fun _ => FileOp.Looks.sparesEvents).mapReject _)
    fun head t => ?_
  dsimp only
  refine extends_after (compareStored_spares store _ 0) fun _ t => ?_
  refine Ensures.lift_bind (fun batch hbatch => ?_) fun _ _ => .of_events rfl
  obtain ⟨hlength, hseqs⟩ := servedBatch_seqs _ hbatch
  have happend : ((store.append call.clock.rebuilt call.clock.written batch).mapReject
      (CoreError.storage (C := C))).Ensures FileOp.exec t
        fun _ files' => Lengthened call.events.length t files' := by
    rw [Ensures, run_mapReject]
    refine append_extends store _ _ batch (fun event hevent => ?_) t
    have hlast := hseqs event hevent
    have hsome := List.length_pos_of_mem hevent
    rw [List.length_drop] at hlength hlast
    omega
  refine happend.bind (fun _ u hu => ?_) fun _ _ hu => hu
  refine (extends_after ((noteFirstSeen_spares _ _).mapReject _) fun _ v => ?_).mono
    fun _ _ h => hu.trans h
  exact .of_events rfl

/-! ## Dropping -/

/-- The event files of a ledger up to a sequence, and none past it. -/
def CutAfter (keep : Nat) (files files' : LedgerFiles C) : Prop :=
  ∀ k, files'.events.get? k = if k ≤ keep then files.events.get? k else none

/-- Removing past an event drops the later ones among those listed. -/
theorem removePast_get (keep : Nat) (seqs : List Nat) : ∀ files : LedgerFiles C,
    (removePast keep seqs).Ensures FileOp.exec files fun r files' => r = .ok () ∧
      ∀ k, files'.events.get? k = if k ∈ seqs ∧ keep < k then none else files.events.get? k := by
  induction seqs with
  | nil =>
    refine fun files => ⟨rfl, fun k => ?_⟩
    rw [if_neg (by simp)]
    rfl
  | cons seq seqs ih =>
    intro files
    rw [removePast]
    by_cases hseq : seq > keep
    · rw [if_pos hseq]
      refine Ensures.after (t := { files with events := files.events.remove seq }) (a := ()) rfl ?_
      refine (ih _).mono fun r files' h => ⟨h.1, fun k => (h.2 k).trans ?_⟩
      dsimp only
      rw [SortedMap.get?_remove]
      by_cases hk : k = seq
      · rw [if_pos hk, ite_self, if_pos ⟨List.mem_cons.mpr (.inl hk), hk ▸ hseq⟩]
      · rw [if_neg hk]
        simp [hk]
    · rw [if_neg hseq]
      refine (ih files).mono fun r files' h => ⟨h.1, fun k => (h.2 k).trans ?_⟩
      by_cases hk : k = seq
      · rw [if_neg fun hin => hseq (hk ▸ hin.2), if_neg fun hin => hseq (hk ▸ hin.2)]
      · simp [hk]

/-- Removing the listed files past a sequence removes every file past it. -/
theorem removePast_cuts (keep : Nat) (files : LedgerFiles C) :
    (removePast keep files.events.keys).Ensures FileOp.exec files fun r files' =>
      r = .ok () ∧ CutAfter keep files files' := by
  refine (removePast_get keep files.events.keys files).mono fun r t ht => ⟨ht.1, fun k => ?_⟩
  rw [ht.2 k]
  by_cases hk : k ≤ keep
  · rw [if_pos hk, if_neg fun hin => absurd hin.2 (by omega)]
  · rw [if_neg hk]
    split_ifs with hin
    · rfl
    · cases hget : files.events.get? k with
      | none => rfl
      | some bytes => exact absurd ⟨SortedMap.mem_keys.mpr ⟨bytes, hget⟩, by omega⟩ hin

/-- A truncation drops every event file past the sequence and no other, however it ends. -/
theorem truncateFiles_cuts (store : LedgerStore C) (keep now : Nat) (files : LedgerFiles C) :
    (truncateFiles store keep now).Ensures FileOp.exec files
      fun _ files' => CutAfter keep files files' := by
  refine Ensures.after (a := files.events.keys) (t := files) rfl ?_
  refine (removePast_cuts keep files).bind (fun _ t ht => ?_) fun e t ht => absurd ht.1 (by simp)
  have hrest : (do
      Program.ask FileOp.removeHead
      let _ ← (store.rebuildHead now).mapReject CoreError.storage
      pure () : OnCopy C Unit).Performs FileOp.SparesEvents :=
    .bind (.ask fun _ => rfl) fun _ => .bind (.mapReject (rebuildHead_spares store now) _) fun _ =>
      .pure _
  intro k
  rw [events_of_spares hrest t]
  exact ht.2 k

/-! ## One witness -/

section Step

variable {setup : Setup} {lock ledger : LedgerId} {s : LedgerStorage C}

/-- Storing events lengthens the ledger. -/
theorem storeEvents_extends (setup : Setup) (lock : LedgerId) (call : StoreCall C)
    (s : LedgerStorage C) :
    (storeEvents setup lock call).Ensures StoreOp.exec s fun _ t =>
      Lengthened call.events.length (s.filesOf call.ledger) (t.filesOf call.ledger) := by
  refine Ensures.lift_bind (fun _ _ => ?_) fun _ _ => .of_events rfl
  have hwrite : (onLedger call.ledger (storeFiles (setup.ledger call.ledger) call)).Ensures
      StoreOp.exec s fun _ t =>
        Lengthened call.events.length (s.filesOf call.ledger) (t.filesOf call.ledger) := by
    refine .of_run (run_onLedger ..) ?_
    rw [LedgerStorage.filesOf_withFiles, if_pos rfl]
    exact storeFiles_extends _ call _
  refine hwrite.bind (fun stored t ht => ?_) fun _ _ ht => ht
  have hnote : (note setup call.ledger call.clock.noted >>= fun _ => pure stored :
      OnNode C (CoreError C) Nat).Performs StoreOp.SparesEvents :=
    .bind (note_spares ..) fun _ => .pure _
  exact ht.trans (.of_events (events_of_sparesAll hnote t call.ledger))

/-- Storing a served chain lengthens the ledger. -/
theorem storeServed_extends (setup : Setup) (lock ledger : LedgerId) (witness : Witness C)
    (chain : LoadedLedger C) (s : LedgerStorage C) :
    (storeServed setup lock ledger witness chain).Ensures CoreOp.exec s fun _ t =>
      Lengthened chain.events.length (s.filesOf ledger) (t.filesOf ledger) := by
  have hstore : (onStore ((storeEvents setup lock
      ⟨ledger, chain.events, some witness.endpoint, witness.stored⟩).mapReject
        SyncError.core)).Ensures CoreOp.exec s fun _ t =>
          Lengthened chain.events.length (s.filesOf ledger) (t.filesOf ledger) := by
    rw [Ensures, run_onStore, run_mapReject]
    exact storeEvents_extends setup lock
      ⟨ledger, chain.events, some witness.endpoint, witness.stored⟩ s
  refine hstore.bind (fun stored t ht => ?_) fun _ _ ht => ht
  refine ht.trans (.of_events ?_)
  change (((t.home.linkControl ledger witness.controller).files.get ledger)).events = _
  rw [NodeHome.files_linkControl]
  rfl

/-- Truncation cuts after the event it keeps through. -/
theorem truncate_cuts (setup : Setup) (call : TruncateCall) (s : LedgerStorage C) :
    (truncate setup call.ledger call).Ensures StoreOp.exec s fun _ t =>
      CutAfter call.keepThrough (s.filesOf call.ledger) (t.filesOf call.ledger) := by
  refine Ensures.lift_bind (fun _ _ => ?_) fun e he => ?_
  · have hwrite : (onLedger call.ledger (truncateFiles (setup.ledger call.ledger)
        call.keepThrough call.rebuilt)).Ensures StoreOp.exec s fun _ t =>
          CutAfter call.keepThrough (s.filesOf call.ledger) (t.filesOf call.ledger) := by
      refine .of_run (run_onLedger ..) ?_
      rw [LedgerStorage.filesOf_withFiles, if_pos rfl]
      exact truncateFiles_cuts _ _ _ _
    refine hwrite.bind (fun _ t ht => ?_) fun _ _ ht => ht
    intro k
    rw [events_of_sparesAll (note_spares setup call.ledger call.noted) t call.ledger]
    exact ht k
  · exact absurd he (by simp [checkLock, Outcome.rejectIf])

/-- What is left of a ledger's event files once what conflicts is replaced: those up to a
sequence, and none past it that the other run does not have. -/
structure Replaced (keep bound : Nat) (files files' : LedgerFiles C) : Prop where
  kept : ∀ k bytes, k ≤ keep → files.events.get? k = some bytes →
    files'.events.get? k = some bytes
  dropped : ∀ k, keep < k → bound ≤ k → files'.events.get? k = none

/-- A ledger cut after an event was replaced from there. -/
theorem CutAfter.replaced {keep bound : Nat} {files files' : LedgerFiles C}
    (h : CutAfter keep files files') : Replaced keep bound files files' := by
  refine ⟨fun k bytes hk hget => ?_, fun k hk _ => ?_⟩
  · rw [h k, if_pos hk]
    exact hget
  · rw [h k, if_neg (by omega)]

/-- A replaced ledger that is lengthened was replaced. -/
theorem Replaced.extended {keep bound : Nat} {files files' files'' : LedgerFiles C}
    (h : Replaced keep bound files files') (h' : Lengthened bound files' files'') :
    Replaced keep bound files files'' :=
  ⟨fun k bytes hk hget => h'.kept k bytes (h.kept k bytes hk hget),
    fun k hk hbound => (h'.bounded k hbound).trans (h.dropped k hk hbound)⟩

/-- Where the local copy is a prefix of the served chain, taking it drops nothing. -/
theorem takeServed_forward (witness : Witness C) (freshness : Freshness)
    {loaded chain : LoadedLedger C} (head : Net.Head)
    (hshared : sharedPrefix loaded.events chain.events = loaded.events.length) :
    (takeServed setup lock ledger witness freshness loaded head chain).Ensures CoreOp.exec s
      fun _ t => Lengthened chain.events.length (s.filesOf ledger) (t.filesOf ledger) := by
  rw [takeServed, if_pos hshared]
  exact (storeServed_extends setup lock ledger witness chain s).bind (fun _ _ ht => ht)
    fun _ _ ht => ht

/-- Elsewhere it replaces what lies past the shared events. -/
theorem takeServed_replaces (witness : Witness C) (freshness : Freshness)
    {loaded chain : LoadedLedger C} (head : Net.Head)
    (hshared : sharedPrefix loaded.events chain.events ≠ loaded.events.length) :
    (takeServed setup ledger ledger witness freshness loaded head chain).Ensures CoreOp.exec s
      fun _ t => Replaced (sharedPrefix loaded.events chain.events - 1) chain.events.length
        (s.filesOf ledger) (t.filesOf ledger) := by
  rw [takeServed, if_neg hshared]
  have hcut : (onStore ((truncate setup ledger ⟨ledger,
      sharedPrefix loaded.events chain.events - 1, witness.truncated,
        witness.noted⟩).mapReject SyncError.core)).Ensures CoreOp.exec s fun _ t =>
      CutAfter (sharedPrefix loaded.events chain.events - 1) (s.filesOf ledger)
        (t.filesOf ledger) := by
    rw [Ensures, run_onStore, run_mapReject]
    exact truncate_cuts setup ⟨ledger, sharedPrefix loaded.events chain.events - 1,
      witness.truncated, witness.noted⟩ s
  refine hcut.bind (fun _ t ht => ?_) fun _ _ ht => ht.replaced
  refine (storeServed_extends setup ledger ledger witness chain t).bind (fun _ u hu => ?_)
    fun _ u hu => ht.replaced.extended hu
  exact ht.replaced.extended hu

/-- With the lock of another ledger it changes nothing. -/
theorem takeServed_unlocked (witness : Witness C) (freshness : Freshness)
    {loaded chain : LoadedLedger C} (head : Net.Head) (hlock : lock ≠ ledger)
    (hshared : sharedPrefix loaded.events chain.events ≠ loaded.events.length) :
    (takeServed setup lock ledger witness freshness loaded head chain).Ensures CoreOp.exec s
      fun _ t => t = s := by
  rw [takeServed, if_neg hshared]
  have hcheck : (checkLock lock ledger : Outcome (CoreError C) Unit) =
      .error (.reject (.wrongAppendLock lock ledger)) := by
    rw [checkLock, Outcome.rejectIf, if_pos hlock]
    rfl
  have htruncate : run StoreOp.exec ((truncate setup lock ⟨ledger,
      sharedPrefix loaded.events chain.events - 1, witness.truncated, witness.noted⟩).mapReject
        SyncError.core) s = (.error (.reject (.core (.wrongAppendLock lock ledger))), s) := by
    rw [run_mapReject, truncate, run_lift_error_bind hcheck]
    rfl
  rw [← run_onStore] at htruncate
  exact .of_run (run_bind_of_error htruncate) rfl

/-- A witness whose chain is fetched: the local copy loads, the reported head does not lie on
it, and what the witness serves verifies. -/
structure Fetches (setup : Setup) (ledger : LedgerId) (s : LedgerStorage C) (witness : Witness C)
    (loaded : LoadedLedger C) (head : Net.Head) (chain : LoadedLedger C) : Prop where
  loads : (run FileOp.exec (load (setup.ledger ledger) witness.loaded) (s.filesOf ledger)).1 =
    .ok loaded
  reports : witness.head = .ok (some head)
  past : reportsPrefix loaded head = false
  serves : candidate ledger witness = .ok (some chain)

/-- The store once the local copy was loaded. -/
def LedgerStorage.looked (s : LedgerStorage C) (setup : Setup) (ledger : LedgerId)
    (witness : Witness C) : LedgerStorage C :=
  s.withFiles ledger
    (run FileOp.exec (load (setup.ledger ledger) witness.loaded) (s.filesOf ledger)).2

/-- Looking at a witness leaves the events. -/
theorem events_looked (s : LedgerStorage C) (witness : Witness C) :
    ((s.looked setup ledger witness).filesOf ledger).events = (s.filesOf ledger).events := by
  rw [LedgerStorage.looked, LedgerStorage.filesOf_withFiles, if_pos rfl]
  exact events_of_spares (load_spares _ _) _

/-- What asking one witness comes to: nothing where its chain is not fetched, with the failure
that kept it from being fetched, and otherwise taking what it served. -/
theorem freshenFrom_cases (freshness : Freshness) (witness : Witness C) :
    (∃ loaded head chain, Fetches setup ledger s witness loaded head chain ∧
      run CoreOp.exec (freshenFrom setup lock ledger freshness witness) s =
        run CoreOp.exec (takeServed setup lock ledger witness freshness loaded head chain)
          (s.looked setup ledger witness)) ∨
    (¬ ∃ loaded head chain, Fetches setup ledger s witness loaded head chain) ∧
      (run CoreOp.exec (freshenFrom setup lock ledger freshness witness) s).2 =
        s.looked setup ledger witness ∧
      ∀ e, (run CoreOp.exec (freshenFrom setup lock ledger freshness witness) s).1 = .error e →
        (∃ e', (run FileOp.exec (load (setup.ledger ledger) witness.loaded)
          (s.filesOf ledger)).1 = .error e') ∨
        witness.head = .error e ∨ candidate ledger witness = .error e := by
  rcases hload : (run FileOp.exec (load (setup.ledger ledger) witness.loaded)
    (s.filesOf ledger)).1 with e | loaded
  · refine .inr ⟨?_, ?_, fun _ _ => .inl ⟨e, rfl⟩⟩
    · rintro ⟨loaded, head, chain, h⟩
      exact absurd (hload.symm.trans h.loads) (by simp)
    · have hfirst : run CoreOp.exec (onStore ((onLedger ledger (load (setup.ledger ledger)
          witness.loaded)).mapReject SyncError.wallet)) s =
          (Outcome.mapReject SyncError.wallet (.error e), s.looked setup ledger witness) := by
        rw [run_onStore, run_mapReject, run_onLedger, hload]
        rfl
      rcases e with error | site
      · rw [freshenFrom, run_bind_of_error hfirst]
      · rw [freshenFrom, run_bind_of_error hfirst]
  have hfirst : run CoreOp.exec (onStore ((onLedger ledger (load (setup.ledger ledger)
      witness.loaded)).mapReject SyncError.wallet)) s =
      (.ok loaded, s.looked setup ledger witness) := by
    rw [run_onStore, run_mapReject, run_onLedger, hload]
    rfl
  rw [freshenFrom, run_bind_of_ok hfirst]
  rcases hhead : witness.head with e | _ | head
  · refine .inr ⟨?_, by rw [run_lift_error_bind rfl], fun e' he => .inr (.inl ?_)⟩
    · rintro ⟨loaded, head, chain, h⟩
      exact absurd (hhead.symm.trans h.reports) (by simp)
    · rw [run_lift_error_bind rfl] at he
      rw [Except.error.inj he]
  · refine .inr ⟨?_, rfl, fun e' he => absurd (show (.ok freshness : Outcome (SyncError C)
      Freshness) = .error e' from he) (by simp)⟩
    rintro ⟨loaded, head, chain, h⟩
    exact absurd (hhead.symm.trans h.reports) (by simp)
  rw [run_lift_ok_bind rfl]
  dsimp only
  cases hpast : reportsPrefix loaded head with
  | true =>
    refine .inr ⟨?_, rfl, fun e' he => absurd he (by simp)⟩
    rintro ⟨loaded', head', chain, h⟩
    obtain rfl := Except.ok.inj (hload.symm.trans h.loads)
    obtain rfl := Option.some.inj (Except.ok.inj (hhead.symm.trans h.reports))
    exact absurd (hpast.symm.trans h.past) (by simp)
  | false =>
    rw [if_neg (by simp)]
    rcases hchain : candidate ledger witness with e | _ | chain
    · refine .inr ⟨?_, by rw [run_lift_error_bind rfl], fun e' he => .inr (.inr ?_)⟩
      · rintro ⟨loaded, head, chain, h⟩
        exact absurd (hchain.symm.trans h.serves) (by simp)
      · rw [run_lift_error_bind rfl] at he
        rw [Except.error.inj he]
    · refine .inr ⟨?_, rfl, fun e' he => absurd (show (.ok freshness : Outcome (SyncError C)
        Freshness) = .error e' from he) (by simp)⟩
      rintro ⟨loaded, head, chain, h⟩
      exact absurd (hchain.symm.trans h.serves) (by simp)
    · exact .inl ⟨loaded, head, chain, ⟨hload, hhead, hpast, hchain⟩, rfl⟩

/-- A fetched chain is not empty. -/
theorem candidate_ne_nil {witness : Witness C} {chain : LoadedLedger C}
    (h : candidate ledger witness = .ok (some chain)) : chain.events ≠ [] := by
  obtain ⟨served, -, h⟩ := Outcome.bind_eq_ok.mp h
  rcases served with _ | _ | ⟨event, events⟩
  · simp at h
  · simp at h
  · obtain ⟨chain', hverified, h⟩ := Outcome.bind_eq_ok.mp h
    obtain rfl := Option.some.inj (Except.ok.inj h)
    rw [verified] at hverified
    rcases hfold : fold C (event :: events) with (e | site) | ⟨state, _ | violation⟩
    · exact e.elim
    · simp [hfold] at hverified
    · rw [hfold] at hverified
      obtain ⟨_, -, hverified⟩ := Outcome.bind_eq_ok.mp hverified
      rw [LoadedLedger.fold_events hverified]
      simp
    · simp [hfold] at hverified

end Step

/-! ## Whole queries -/

/-- One witness of a query, with the store before and after it is asked. -/
structure Visit (C : Crypto) where
  before : LedgerStorage C
  witness : Witness C
  after : LedgerStorage C

/-- The witnesses a query comes to. It ends at the first one that fails. -/
def visits (setup : Setup) (lock ledger : LedgerId) (s : LedgerStorage C) (freshness : Freshness) :
    List (Witness C) → List (Visit C)
  | [] => []
  | witness :: witnesses =>
    match run CoreOp.exec (freshenFrom setup lock ledger freshness witness) s with
    | (.ok freshness, t) => ⟨s, witness, t⟩ :: visits setup lock ledger t freshness witnesses
    | (.error _, t) => [⟨s, witness, t⟩]

/-- Every event that was stored before the visit and is not after it lies at or past a
sequence where the chain fetched from the witness holds another event than the local copy. -/
def Visit.Justified (ledger : LedgerId) (v : Visit C) : Prop :=
  ∀ k bytes, (v.before.filesOf ledger).events.get? k = some bytes →
    (v.after.filesOf ledger).events.get? k ≠ some bytes →
    ∃ chain, candidate ledger v.witness = .ok (some chain) ∧ ∃ j ≤ k, ∃ held other,
      (v.before.filesOf ledger).events.get? j = some held ∧ chain.events[j]? = some other ∧
      held ≠ other

/-- The witness reports a head that does not lie on the local copy and serves a chain the local
copy extends. -/
def Behind (setup : Setup) (ledger : LedgerId) (s : LedgerStorage C) (witness : Witness C) : Prop :=
  ∃ loaded head chain, Fetches setup ledger s witness loaded head chain ∧
    chain.events <+: loaded.events ∧ chain.events ≠ loaded.events

section Query

variable {setup : Setup} {lock ledger : LedgerId}

/-- The witnesses leave the state of the last visit. -/
theorem run_askWitnesses_visits (witnesses : List (Witness C)) :
    ∀ (freshness : Freshness) (s : LedgerStorage C),
      (run CoreOp.exec (askWitnesses setup lock ledger freshness witnesses) s).2 =
        (((visits setup lock ledger s freshness witnesses).getLast?).map Visit.after).getD s := by
  induction witnesses with
  | nil => exact fun _ _ => rfl
  | cons witness witnesses ih =>
    intro freshness s
    rw [askWitnesses, visits]
    rcases hrun : run CoreOp.exec (freshenFrom setup lock ledger freshness witness) s with
      ⟨_ | freshness', t⟩
    · rw [run_bind_of_error hrun]
      rfl
    · rw [run_bind_of_ok hrun, ih]
      dsimp only
      rw [List.getLast?_cons]
      cases (visits setup lock ledger t freshness' witnesses).getLast? <;> rfl

/-- The first witness is always visited. -/
theorem first_visit (freshness : Freshness) (s : LedgerStorage C) (witness : Witness C)
    (witnesses : List (Witness C)) :
    ⟨s, witness, (run CoreOp.exec (freshenFrom setup lock ledger freshness witness) s).2⟩ ∈
      visits setup lock ledger s freshness (witness :: witnesses) := by
  rw [visits]
  rcases run CoreOp.exec (freshenFrom setup lock ledger freshness witness) s with ⟨_ | _, t⟩
  · exact List.mem_singleton_self _
  · exact List.mem_cons_self

/-- A visit freshens from the state before it. -/
theorem visits_spec (witnesses : List (Witness C)) :
    ∀ {freshness : Freshness} {s : LedgerStorage C} {v : Visit C},
      v ∈ visits setup lock ledger s freshness witnesses → ∃ freshness',
        v.after = (run CoreOp.exec (freshenFrom setup lock ledger freshness' v.witness) v.before).2 := by
  induction witnesses with
  | nil => exact fun h => absurd h List.not_mem_nil
  | cons witness witnesses ih =>
    intro freshness s v hv
    rw [visits] at hv
    rcases hrun : run CoreOp.exec (freshenFrom setup lock ledger freshness witness) s with
      ⟨_ | freshness', t⟩
    · rw [hrun] at hv
      obtain rfl := List.mem_singleton.mp hv
      exact ⟨freshness, by rw [hrun]⟩
    · rw [hrun] at hv
      rcases List.mem_cons.mp hv with rfl | hmem
      · exact ⟨freshness, by rw [hrun]⟩
      · exact ih hmem

/-- A visit drops events for a conflict only, exactly when the witness is not behind. -/
theorem justified_iff (freshness : Freshness) (witness : Witness C) (s : LedgerStorage C) :
    Visit.Justified ledger ⟨s, witness,
        (run CoreOp.exec (freshenFrom setup lock ledger freshness witness) s).2⟩ ↔
      ¬ (lock = ledger ∧ Behind setup ledger s witness) := by
  rcases @freshenFrom_cases C setup lock ledger s freshness witness with
    ⟨loaded, head, chain, hfetches, hrun⟩ | ⟨hnone, hrun, -⟩
  swap
  · refine iff_of_true (fun k bytes hk hgone => ?_) ?_
    · rw [hrun, events_looked] at hgone
      exact absurd hk hgone
    · rintro ⟨-, loaded, head, chain, hfetches, -⟩
      exact hnone ⟨loaded, head, chain, hfetches⟩
  have hunique : Behind setup ledger s witness ↔
      chain.events <+: loaded.events ∧ chain.events ≠ loaded.events := by
    refine ⟨?_, fun h => ⟨loaded, head, chain, hfetches, h⟩⟩
    rintro ⟨loaded', head', chain', hfetches', h⟩
    obtain rfl := Except.ok.inj (hfetches.loads.symm.trans hfetches'.loads)
    obtain rfl := Option.some.inj (Except.ok.inj (hfetches.serves.symm.trans hfetches'.serves))
    exact h
  have hlocal : ∀ {k bytes}, loaded.events[k]? = some bytes →
      (s.filesOf ledger).events.get? k = some bytes := by
    intro k bytes hk
    refine run_load_events (Prod.ext hfetches.loads rfl) hk
  have hlooked := @events_looked C setup ledger s witness
  rw [hunique]
  by_cases hshared : sharedPrefix loaded.events chain.events = loaded.events.length
  · have hextends := @takeServed_forward C setup lock ledger (s.looked setup ledger witness) witness
      freshness loaded chain head hshared
    rw [Ensures, ← hrun] at hextends
    refine iff_of_true (fun k bytes hk hgone => ?_) ?_
    · exact absurd (hextends.kept k bytes (by rwa [hlooked])) hgone
    · rintro ⟨-, hbehind, hne⟩
      rw [← sharedPrefix_eq_length_iff, hshared] at hbehind
      exact hne ((((sharedPrefix_eq_length_iff _ _).mp (hshared.trans hbehind))).eq_of_length
        hbehind.symm)
  by_cases hlock : lock = ledger
  swap
  · have hsame := @takeServed_unlocked C setup lock ledger (s.looked setup ledger witness) witness
      freshness loaded chain head hlock hshared
    rw [Ensures, ← hrun] at hsame
    refine iff_of_true (fun k bytes hk hgone => ?_) fun h => hlock h.1
    rw [hsame, hlooked] at hgone
    exact absurd hk hgone
  subst hlock
  have hreplaces := @takeServed_replaces C setup lock (s.looked setup lock witness) witness freshness
    loaded chain head hshared
  rw [Ensures, ← hrun] at hreplaces
  have hlt : sharedPrefix loaded.events chain.events < loaded.events.length :=
    lt_of_le_of_ne ((sharedPrefix_le _ _).trans (Nat.min_le_left _ _)) hshared
  constructor
  · -- Behind, the first event past the served chain is dropped and nothing conflicts.
    rintro hjustified ⟨-, hprefix, -⟩
    have heq := (sharedPrefix_eq_length_iff loaded.events chain.events).mpr hprefix
    have hpos := List.length_pos_iff.mpr (candidate_ne_nil hfetches.serves)
    have hstored := hlocal (List.getElem?_eq_getElem hlt)
    have hdropped := hreplaces.dropped (sharedPrefix loaded.events chain.events) (by omega)
      heq.ge
    obtain ⟨chain', hchain', j, -, held, other, hheld, hother, hne⟩ :=
      hjustified _ _ hstored (by rw [hdropped]; simp)
    obtain rfl := Option.some.inj (Except.ok.inj (hfetches.serves.symm.trans hchain'))
    have hin := (List.getElem?_eq_some_iff.mp hother).1
    have hsame : loaded.events[j]? = some other := by
      obtain ⟨rest, hrest⟩ := hprefix
      rw [← hrest, List.getElem?_append_left hin]
      exact hother
    exact hne (Option.some.inj (hheld.symm.trans (hlocal hsame)))
  · intro hnot k bytes hk hgone
    refine ⟨chain, hfetches.serves, ?_⟩
    have hshort : sharedPrefix loaded.events chain.events < chain.events.length := by
      refine lt_of_le_of_ne ((sharedPrefix_le _ _).trans (Nat.min_le_right _ _)) fun heq =>
        hnot ⟨rfl, ?_, ?_⟩
      · exact (sharedPrefix_eq_length_iff _ _).mp heq
      · intro hsame
        rw [heq, hsame] at hlt
        exact absurd hlt (lt_irrefl _)
    have hpast : sharedPrefix loaded.events chain.events ≤ k := by
      by_contra hlow
      exact hgone (hreplaces.kept k bytes (by omega) (by rwa [hlooked]))
    refine ⟨_, hpast, _, _, hlocal (List.getElem?_eq_getElem hlt),
      List.getElem?_eq_getElem hshort, fun heq => ?_⟩
    refine sharedPrefix_differs loaded.events hlt hshort ?_
    rw [List.getElem?_eq_getElem hlt, List.getElem?_eq_getElem hshort, heq]

end Query

/-- At every witness a query comes to, whatever the witnesses answer: every local event that is
dropped lies at or past a sequence where the chain fetched from that witness holds another
event than the local copy, if and only if it is not so that the witness reports a head off the
local copy and serves a verified chain that the local copy extends. The store ends as the last
visit leaves it. -/
theorem query_drops_conflicts_only (setup : Setup) (lock ledger : LedgerId)
    (witnesses : List (Witness C)) (s : LedgerStorage C) :
    (run CoreOp.exec (ensureFreshLocked setup lock ledger witnesses) s).2 =
        (((visits setup lock ledger s .upToDate witnesses).getLast?).map Visit.after).getD s ∧
      ∀ v ∈ visits setup lock ledger s .upToDate witnesses,
        v.Justified ledger ↔ ¬ (lock = ledger ∧ Behind setup ledger v.before v.witness) := by
  refine ⟨run_askWitnesses_visits witnesses .upToDate s, fun v hv => ?_⟩
  obtain ⟨freshness, hafter⟩ := visits_spec witnesses hv
  obtain ⟨before, witness, after⟩ := v
  dsimp only at hafter
  rw [hafter]
  exact justified_iff freshness witness before

/-! ## A sample query -/

/-- A home that stores the first two events of the sample ledger. -/
def sampleCopy : LedgerStorage Crypto.sample :=
  (sampleHome.push (sampleCall (sampleLedger.take 2))).2

/-- A witness that reports a head past the copy and serves only the inception. -/
def sampleLiar : Witness Crypto.sample where
  endpoint := (SecretKey.sample 2).publicKey
  head := .ok (some ⟨5, ⟨.ofNat idBytes 7⟩, 1⟩)
  served := .ok (some (sampleLedger.take 1))
  controller := none
  loaded := 1
  truncated := 2
  noted := ⟨3, 4⟩
  stored := ⟨5, 6, 7, 8, ⟨9, 10⟩⟩

/-- Asked before an append, that witness makes the second local event disappear, though what it
serves holds no event that differs from the local copy. -/
theorem prefix_witness_drops_event :
    (sampleCopy.filesOf sampleLedgerId).stored = sampleLedger.take 2 ∧
      ((run CoreOp.exec (ensureFreshLocked sampleSetup sampleLedgerId sampleLedgerId [sampleLiar])
        sampleCopy).2.filesOf sampleLedgerId).stored = sampleLedger.take 1 ∧
      ¬ ∀ v ∈ visits sampleSetup sampleLedgerId sampleLedgerId sampleCopy .upToDate [sampleLiar],
        v.Justified sampleLedgerId := by
  refine ⟨by decide +kernel, by decide +kernel, fun h => ?_⟩
  have hjustified := h _ (first_visit .upToDate sampleCopy sampleLiar [])
  have hbefore : ∀ k < 2, (sampleCopy.filesOf sampleLedgerId).events.get? k = sampleLedger[k]? := by
    decide +kernel
  have hafter : ((run CoreOp.exec (freshenFrom sampleSetup sampleLedgerId sampleLedgerId .upToDate
      sampleLiar) sampleCopy).2.filesOf sampleLedgerId).events.get? 1 = none := by decide +kernel
  have hserved : (candidate sampleLedgerId sampleLiar).map (Option.map LoadedLedger.events) =
      .ok (some (sampleLedger.take 1)) := by decide +kernel
  obtain ⟨second, hsecond⟩ : ∃ second, sampleLedger[1]? = some second :=
    Option.isSome_iff_exists.mp (by decide +kernel)
  obtain ⟨chain, hchain, j, -, held, other, hheld, hother, hne⟩ :=
    hjustified 1 second ((hbefore 1 (by omega)).trans hsecond) (by rw [hafter]; simp)
  rw [hchain] at hserved
  have hevents : chain.events = sampleLedger.take 1 := Option.some.inj (Except.ok.inj hserved)
  rw [hevents, List.getElem?_take] at hother
  split_ifs at hother with hj
  obtain rfl : j = 0 := by omega
  exact hne (Option.some.inj (hheld.symm.trans ((hbefore 0 (by omega)).trans hother)))

end Mabel.Node

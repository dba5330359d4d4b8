import Mabel.Node.Storing

/-!
# Crashes inside a truncation

A truncation removes event files one after another and drops the head cache afterwards. Until
it does, readers still trust a head that lies past the files, so a crash in between leaves a
directory that cannot be read, unless nothing that is served is dropped or there was no head
cache to trust.
-/

namespace Mabel.Node

open Wire Proto Net Program

variable {C : Crypto}

/-- Stopped after any number of operations, a truncation leaves a directory from which reading
answers the beginning of a log, with every event of it through the sequence that is kept. -/
def TruncatesSafely (s : LedgerStorage C) (lock : LedgerId) (call : TruncateCall)
    (log : List Bytes) : Prop :=
  ∀ operations, ∃ served, (s.setup.ledger call.ledger).Serves
      ((cut StoreOp.exec operations (truncate s.setup lock call) s).filesOf call.ledger) served ∧
    served <+: log ∧ log.take (call.keepThrough + 1) <+: served

/-- The sequence that is kept is the end of a log or lies past it, and no event file that is
kept lies right behind the log. -/
def DropsNothing (files : LedgerFiles C) (log : List Bytes) (keep : Nat) : Prop :=
  log.length ≤ keep + 1 ∧ (log.length ≤ keep → files.events.get? log.length = none)

/-- A log whose fold meets no violation is a run. -/
theorem foldRun_of_valid {log : List Bytes} (h : (fold C log).map Prod.snd = .ok none) :
    ∃ state : LedgerState C, FoldRun log state := by
  rcases hfold : fold C log with e | ⟨state, violation⟩
  · rw [hfold] at h
    simp [Except.map] at h
  · rw [hfold] at h
    obtain rfl : violation = none := Except.ok.inj h
    exact ⟨state, fold_eq_ok.mp hfold⟩

section Truncation

variable {s : LedgerStorage C} {lock : LedgerId} {call : TruncateCall} {log : List Bytes}

/-- Every state a truncation passes stores what is kept. -/
theorem throughout_truncate (h : StoresOf call.ledger log s)
    (hhead : (s.filesOf call.ledger).headFile = none ∨ log.length ≤ call.keepThrough + 1)
    (hpast : log.length ≤ call.keepThrough →
      (s.filesOf call.ledger).events.get? log.length = none) :
    (truncate s.setup lock call).Throughout StoreOp.exec s fun t =>
      StoresThrough call.keepThrough log (t.filesOf call.ledger) := by
  have hfiles := Stores.throughout_truncateFiles (s.setup.ledger call.ledger) h call.rebuilt hhead
    hpast
  have hwrite : (onLedger call.ledger (truncateFiles (s.setup.ledger call.ledger)
      call.keepThrough call.rebuilt)).Throughout StoreOp.exec s fun t =>
        StoresThrough call.keepThrough log (t.filesOf call.ledger) := by
    refine throughout_onLedger.mpr (hfiles.mono fun g hg => ?_)
    rw [LedgerStorage.filesOf_withFiles, if_pos rfl]
    exact hg
  refine .lift_bind (hwrite 0) fun _ _ => hwrite.bind fun _ t ht => ?_
  have hafter := hwrite.final
  rw [ht] at hafter
  obtain ⟨served, hstores, hle, hthrough⟩ := hafter
  exact (StoresOf.throughout_note hstores s.setup call.noted).mono
    fun u hu => ⟨served, hu, hle, hthrough⟩

/-- The directory between the removals and the drop of the head cache, and right after it. -/
theorem between_truncate {I : LedgerStorage C → Prop} (hlock : lock = call.ledger)
    (h : (truncate s.setup lock call).Throughout StoreOp.exec s I) : ∃ files,
      CutAfter call.keepThrough (s.filesOf call.ledger) files ∧
      files.headFile = (s.filesOf call.ledger).headFile ∧
      I (s.withFiles call.ledger files) ∧
      I (s.withFiles call.ledger { files with headFile := none }) := by
  have hcheck : (checkLock lock call.ledger : Outcome (CoreError C) Unit) = .ok () :=
    hlock ▸ checkLock_self lock
  have hwhole := h.second (run_lift_eq_ok.mpr ⟨hcheck, rfl⟩)
  have hfiles := throughout_onLedger.mp hwhole.first
  have hlisted := hfiles.second (a := (s.filesOf call.ledger).events.keys) rfl
  have hremove := removePast_cuts call.keepThrough (s.filesOf call.ledger)
  have hthin : Thinned call.keepThrough (s.filesOf call.ledger) (s.filesOf call.ledger) :=
    ⟨rfl, fun _ _ => rfl, fun _ => .inl rfl⟩
  have hhead := (throughout_removePast call.keepThrough (s.filesOf call.ledger).events.keys
    hthin).final.headFile
  have hbetween : I (s.withFiles call.ledger (run FileOp.exec (removePast call.keepThrough
    (s.filesOf call.ledger).events.keys) (s.filesOf call.ledger)).2) := hlisted.between
  rcases hrun : run FileOp.exec (removePast call.keepThrough (s.filesOf call.ledger).events.keys)
    (s.filesOf call.ledger) with ⟨x, files⟩
  rw [Ensures, hrun] at hremove
  obtain ⟨rfl, hcut⟩ : x = .ok () ∧ CutAfter call.keepThrough (s.filesOf call.ledger) files := hremove
  rw [hrun] at hhead hbetween
  exact ⟨files, hcut, hhead, hbetween, (hlisted.second hrun).between⟩

/-- Where a truncation is safe, no head cache is trusted past what it keeps, and no event file
shows up behind the log. -/
theorem TruncatesSafely.dropsNothing (h : TruncatesSafely s lock call log)
    (hstores : StoresOf call.ledger log s) (hlock : lock = call.ledger)
    (hcached : (s.filesOf call.ledger).headFile ≠ none) :
    DropsNothing (s.filesOf call.ledger) log call.keepThrough := by
  obtain ⟨head, hhead⟩ := Option.ne_none_iff_exists'.mp hcached
  have hthrough : (truncate s.setup lock call).Throughout StoreOp.exec s fun t => ∃ served,
      (s.setup.ledger call.ledger).Serves (t.filesOf call.ledger) served ∧ served <+: log ∧
        log.take (call.keepThrough + 1) <+: served := h
  obtain ⟨files, hcut, hfile, ⟨served, hserves, hle, -⟩, ⟨rest, hserves', hle', -⟩⟩ :=
    between_truncate hlock hthrough
  rw [LedgerStorage.filesOf_withFiles, if_pos rfl] at hserves hserves'
  have hlength := hstores.cached head hhead
  constructor
  · -- The head is still cached, so everything up to it is read.
    have hstill := Stores.of_serves hserves fun bytes hmem => hstores.decodes bytes (hle.subset hmem)
    have hsame := hstill.cached head (hfile.trans hhead)
    have hget := hstill.holds head.seq (by omega)
    rw [hcut head.seq, List.getElem?_eq_getElem (show head.seq < served.length by omega)] at hget
    split_ifs at hget with hseq
    omega
  · -- Without the cache, the run of event files is read to its end.
    intro hkeep
    by_contra hsome
    have hshort := Stores.of_serves hserves' fun bytes hmem => hstores.decodes bytes (hle'.subset hmem)
    have hend := hshort.rebuilt rfl
    have hlen := hle'.length_le
    change files.events.get? rest.length = none at hend
    rw [hcut rest.length, if_pos (by omega)] at hend
    rcases Nat.eq_or_lt_of_le hlen with heq | hlt
    · rw [heq] at hend
      exact hsome hend
    · rw [hstores.holds rest.length hlt, List.getElem?_eq_getElem hlt] at hend
      simp at hend

end Truncation

/-- Truncate crash safety. For every stored ledger that verifies, every sequence and every lock:
wherever a truncation is stopped, reading answers a prefix of the ledger with everything through
the sequence, if and only if the lock is of another ledger, no head is cached, or the truncation
drops nothing. -/
theorem truncate_crash_safe_iff (s : LedgerStorage C) (lock : LedgerId) (call : TruncateCall)
    {log : List Bytes}
    (hserves : (s.setup.ledger call.ledger).Serves (s.filesOf call.ledger) log)
    (hvalid : (fold C log).map Prod.snd = .ok none) :
    TruncatesSafely s lock call log ↔ lock ≠ call.ledger ∨
      (s.filesOf call.ledger).headFile = none ∨
      DropsNothing (s.filesOf call.ledger) log call.keepThrough := by
  have hstores : StoresOf call.ledger log s := by
    refine .of_serves hserves fun bytes hmem => ?_
    obtain ⟨state, hrun⟩ := foldRun_of_valid hvalid
    obtain ⟨k, hk⟩ := List.mem_iff_getElem?.mp hmem
    obtain ⟨u, u', -, -, ⟨st⟩, -⟩ := hrun.at_index hk
    rw [st.opened.decode]
    rfl
  constructor
  · intro h
    by_contra hnot
    simp only [not_or, not_not] at hnot
    exact hnot.2.2 (h.dropsNothing hstores hnot.1 hnot.2.1)
  · intro hcase operations
    by_cases hlock : lock = call.ledger
    · have hsafe := hcase.resolve_left (not_not.mpr hlock)
      obtain ⟨served, hserved, hle, hthrough⟩ := throughout_truncate hstores
        (hsafe.imp_right And.left) (hsafe.elim (fun hnone _ => hstores.rebuilt hnone) And.right)
        operations
      exact ⟨served, hserved.serves _, hle, hthrough⟩
    · have hsame : (truncate s.setup lock call).Throughout StoreOp.exec s (· = s) := by
        refine .lift_bind rfl fun _ hcheck => ?_
        rw [checkLock_of_ne hlock] at hcheck
        simp [Outcome.reject] at hcheck
      rw [hsame operations]
      exact ⟨log, hserves, List.prefix_rfl, List.take_prefix _ _⟩

/-- A truncation of the sample ledger. -/
def sampleTruncation (keepThrough : Nat) : TruncateCall :=
  ⟨sampleLedgerId, keepThrough, 1, ⟨2, 3⟩⟩

/-- The sample copy stores the sample's first two events. -/
theorem storesOf_sampleCopy : StoresOf sampleLedgerId (sampleLedger.take 2) sampleCopy := by
  obtain ⟨hholds, hdecodes, hseq⟩ : (∀ seq < (sampleLedger.take 2).length,
      (sampleCopy.filesOf sampleLedgerId).events.get? seq = (sampleLedger.take 2)[seq]?) ∧
      (∀ bytes ∈ sampleLedger.take 2, (SignedEvent.decode bytes).isSome = true) ∧
      (sampleCopy.filesOf sampleLedgerId).headFile.map Head.seq = some 1 := by decide +kernel
  obtain ⟨head, hhead, hseq⟩ := Option.map_eq_some_iff.mp hseq
  exact .of_cached hholds hdecodes hhead (by rw [hseq]; decide +kernel)

/-- The sample copy of a home whose `head.json` was never written. -/
def uncachedCopy : LedgerStorage Crypto.sample :=
  sampleCopy.withFiles sampleLedgerId { sampleCopy.filesOf sampleLedgerId with headFile := none }

/-- A truncation drops the second event, and no head is cached: wherever it is stopped, the copy
reads as one of its beginnings. -/
theorem truncate_crash_safe_iff_uncachedCopy :
    (uncachedCopy.filesOf sampleLedgerId).stored = sampleLedger.take 2 ∧
      (((truncate uncachedCopy.setup sampleLedgerId (sampleTruncation 0)).run StoreOp.exec
        uncachedCopy).2.filesOf sampleLedgerId).stored = sampleLedger.take 1 ∧
      TruncatesSafely uncachedCopy sampleLedgerId (sampleTruncation 0)
        (sampleLedger.take 2) := by
  obtain ⟨hholds, hdecodes, hcached, hrebuilt⟩ : (∀ seq < (sampleLedger.take 2).length,
      (uncachedCopy.filesOf sampleLedgerId).events.get? seq = (sampleLedger.take 2)[seq]?) ∧
      (∀ bytes ∈ sampleLedger.take 2, (SignedEvent.decode bytes).isSome = true) ∧
      (uncachedCopy.filesOf sampleLedgerId).headFile = none ∧
      (uncachedCopy.filesOf sampleLedgerId).events.get? (sampleLedger.take 2).length = none := by
    decide +kernel
  have hstores : StoresOf sampleLedgerId (sampleLedger.take 2) uncachedCopy :=
    ⟨hholds, hdecodes, fun head hhead => by simp [hcached] at hhead, fun _ => hrebuilt⟩
  have hsafe := truncate_crash_safe_iff uncachedCopy sampleLedgerId (sampleTruncation 0)
    (hstores.serves _) (by decide +kernel)
  exact ⟨by decide +kernel, by decide +kernel, hsafe.mpr (.inr (.inl hcached))⟩

/-- A crash after the first file is removed: two events were stored and the first is to be kept,
but the cached head still names the second and nothing can be read. -/
theorem stopped_truncation_unreadable :
    (sampleCopy.filesOf sampleLedgerId).stored = sampleLedger.take 2 ∧
      (run FileOp.exec ((sampleCopy.setup.ledger sampleLedgerId).readAll 0)
        ((cut StoreOp.exec 2 (truncate sampleCopy.setup sampleLedgerId (sampleTruncation 0))
          sampleCopy).filesOf sampleLedgerId)).1 =
            Outcome.reject (.missingEvent sampleLedgerId 1) ∧
      ¬ TruncatesSafely sampleCopy sampleLedgerId (sampleTruncation 0) (sampleLedger.take 2) := by
  obtain ⟨hstored, hread⟩ : (sampleCopy.filesOf sampleLedgerId).stored =
        sampleLedger.take 2 ∧
      (run FileOp.exec ((sampleCopy.setup.ledger sampleLedgerId).readAll 0)
        ((cut StoreOp.exec 2 (truncate sampleCopy.setup sampleLedgerId (sampleTruncation 0))
          sampleCopy).filesOf sampleLedgerId)).1 =
            Outcome.reject (.missingEvent sampleLedgerId 1) := by
    decide +kernel
  refine ⟨hstored, hread, fun h => ?_⟩
  obtain ⟨served, hserves, -⟩ := h 2
  exact absurd ((hserves 0).symm.trans hread) (by simp [Outcome.reject])

end Mabel.Node

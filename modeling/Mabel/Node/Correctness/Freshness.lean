import Mabel.Node.Correctness.FirstSeen
import Mabel.Node.Noting

/-!
# The index after a wallet writes

The index is fresh when the entry it keeps of each ledger is what loading the files gives.
Every write of a wallet that tells the index afterwards keeps it so. Minting an identity
without a profile is the one that does not: its ledger is on disk and in no index.
-/

namespace Mabel.Node

open Wire Proto Net Program

variable {C : Crypto}

/-! ## Fresh entries -/

/-- The entry of a ledger in the index is what loading its files gives, at any time and with
no change to them. -/
def FreshAt (s : LedgerStorage C) (l : LedgerId) : Prop :=
  ∀ clock, run FileOp.exec (loadEntry (s.setup.ledger l) clock) (s.filesOf l) =
    (.ok (s.index.ledgers.get? l), s.filesOf l)

/-- Every ledger has an entry exactly when loading its files gives one, and it is that one. -/
def Fresh (s : LedgerStorage C) : Prop := ∀ l, FreshAt s l

theorem FreshAt.readable {s : LedgerStorage C} {l : LedgerId} (h : FreshAt s l) :
    Readable (s.filesOf l) := (run_loadEntry_eq_ok (h ⟨0, 0⟩)).1

/-- A ledger stays fresh while setup, files and entry stay. -/
theorem FreshAt.congr {s t : LedgerStorage C} {l : LedgerId} (h : FreshAt s l)
    (hsetup : t.setup = s.setup) (hfiles : t.filesOf l = s.filesOf l)
    (hentry : t.index.ledgers.get? l = s.index.ledgers.get? l) : FreshAt t l := by
  intro clock
  rw [hsetup, hfiles, hentry]
  exact h clock

/-! ## Telling the index -/

/-- The store once an entry read from the files is put in the place of its ledger's. -/
theorem run_noteLedger {s : LedgerStorage C} {l : LedgerId} {clock : LoadClock}
    {entry : Option (Entry C)} {files : LedgerFiles C}
    (h : run FileOp.exec (loadEntry (s.setup.ledger l) clock) (s.filesOf l) = (.ok entry, files)) :
    ∃ t, run StoreOp.exec (noteLedger s.setup l clock) s = (.ok (), t) ∧ t.setup = s.setup ∧
      ∀ l', t.filesOf l' = (if l' = l then files else s.filesOf l') ∧
        t.index.ledgers.get? l' = if l' = l then entry else s.index.ledgers.get? l' := by
  have hload : run StoreOp.exec (onLedger l (loadEntry (s.setup.ledger l) clock)) s =
      (.ok entry, s.withFiles l files) := by
    rw [run_onLedger, h]
  rw [noteLedger, run_bind_of_ok hload, Shared.run_lockIndex_bind, run_andFinally, noteEntry,
    Shared.run_readIndex_bind]
  dsimp only
  rw [Shared.run_writeIndex_bind, run_recheckFor]
  refine ⟨_, rfl, rfl, fun l' => ⟨LedgerStorage.filesOf_withFiles s l l' files, ?_⟩⟩
  change ((entry.elim (s.index.drop l) ((s.index.drop l).add l)).ledgers.get? l') = _
  cases entry with
  | none => rw [Option.elim_none, Index.get?_drop]
  | some entry =>
    rw [Option.elim_some, Index.get?_add, Index.get?_drop]
    by_cases hl : l' = l
    · rw [if_pos hl, if_pos hl]
    · rw [if_neg hl, if_neg hl, if_neg hl]

/-- Telling the index of a readable directory makes its entry fresh. -/
theorem fresh_note {ε : Type} {s t : LedgerStorage C} {l : LedgerId} {clock : LoadClock} {u : Unit}
    (hothers : ∀ l', l' ≠ l → FreshAt s l') (hreadable : Readable (s.filesOf l))
    (h : run StoreOp.exec (note s.setup l clock : OnNode C ε Unit) s = (.ok u, t)) :
    Fresh t ∧ t.setup = s.setup := by
  obtain ⟨x, hx, hload⟩ := hreadable.run_loadEntry (s.setup.ledger l)
  obtain ⟨done, t', hattempt, hpure⟩ := run_bind_eq_ok.mp h
  obtain ⟨-, rfl⟩ := Prod.mk.inj hpure
  rw [run_attempt] at hattempt
  rcases x with (e | site) | entry
  · exact absurd rfl (hx e)
  · have hpanic : run StoreOp.exec (noteLedger s.setup l clock) s =
        (.error (.panic site), s.withFiles l (s.filesOf l)) := by
      refine run_bind_of_error ?_
      rw [run_onLedger, hload]
    rw [hpanic] at hattempt
    exact absurd (congrArg Prod.fst hattempt) (by simp [attempted])
  · obtain ⟨t'', hnote, hsetup, hafter⟩ := run_noteLedger (hload clock)
    rw [hnote] at hattempt
    obtain ⟨-, rfl⟩ := Prod.mk.inj hattempt
    refine ⟨fun l' clock' => ?_, hsetup⟩
    obtain ⟨hfiles, hentry⟩ := hafter l'
    by_cases hl : l' = l
    · rw [if_pos hl] at hfiles hentry
      rw [hsetup, hfiles, hentry, hl]
      exact hload clock'
    · rw [if_neg hl] at hfiles hentry
      exact (hothers l' hl).congr hsetup hfiles hentry clock'

/-- A write of one ledger's files that leaves them readable, and telling the index. -/
theorem Fresh.written {ε ε' α : Type} {s u t : LedgerStorage C} {l : LedgerId} {clock : LoadClock}
    {p : Program (FileOp C) FileOp.Reply ε α} {a : α} {v : Unit} (hfresh : Fresh s)
    (hwrite : run StoreOp.exec (onLedger l p) s = (.ok a, u))
    (hreadable : ∀ files, run FileOp.exec p (s.filesOf l) = (.ok a, files) → Readable files)
    (hnote : run StoreOp.exec (note s.setup l clock : OnNode C ε' Unit) u = (.ok v, t)) :
    Fresh t ∧ t.setup = s.setup := by
  obtain ⟨files, hok, rfl⟩ := run_onLedger_eq_ok.mp hwrite
  refine fresh_note (s := s.withFiles l files) (fun l' hl' => ?_) ?_ hnote
  · refine (hfresh l').congr rfl ?_ rfl
    rw [LedgerStorage.filesOf_withFiles, if_neg hl']
  · rw [LedgerStorage.filesOf_withFiles, if_pos rfl]
    exact hreadable files hok

/-! ## The operations of a wallet -/

section Operations

variable {s t : LedgerStorage C}

/-- A wallet's append keeps a storage fresh. -/
theorem Fresh.append (hfresh : Fresh s) {lock : LedgerId} {call : WalletCall C} {a : AppendedEvent}
    (h : run StoreOp.exec (append s.setup lock call) s = (.ok a, t)) : Fresh t := by
  obtain ⟨_, u, hlock, h⟩ := run_bind_eq_ok.mp h
  obtain ⟨-, rfl⟩ := run_lift_eq_ok.mp hlock
  obtain ⟨appended, u, hwrite, h⟩ := run_bind_eq_ok.mp (run_mapReject_eq_ok.mp h)
  obtain ⟨done, u', hattempt, h⟩ := run_bind_eq_ok.mp h
  obtain ⟨-, rfl⟩ := Prod.mk.inj h
  have hnote : run StoreOp.exec (note s.setup call.ledger call.clock.noted :
      OnNode C (WalletError C) Unit) u = (.ok (), u') := run_bind_eq_ok.mpr ⟨done, u', hattempt, rfl⟩
  exact (hfresh.written hwrite (fun files => Steady.appendEvent _ _ _ _ _ files
    (hfresh call.ledger).readable) hnote).1

/-- Storing served events keeps a storage fresh. -/
theorem Fresh.storeEvents (hfresh : Fresh s) {lock : LedgerId} {call : StoreCall C} {n : Nat}
    (h : run StoreOp.exec (storeEvents s.setup lock call) s = (.ok n, t)) : Fresh t := by
  obtain ⟨_, u, hlock, h⟩ := run_bind_eq_ok.mp h
  obtain ⟨-, rfl⟩ := run_lift_eq_ok.mp hlock
  obtain ⟨stored, u, hwrite, h⟩ := run_bind_eq_ok.mp h
  obtain ⟨_, u', hnote, h⟩ := run_bind_eq_ok.mp h
  obtain ⟨-, rfl⟩ := Prod.mk.inj h
  exact (hfresh.written hwrite (fun files => Steady.storeFiles _ _ _ _ files
    (hfresh call.ledger).readable) hnote).1

/-- Truncation keeps a storage fresh. -/
theorem Fresh.truncate (hfresh : Fresh s) {lock : LedgerId} {call : TruncateCall} {u : Unit}
    (h : run StoreOp.exec (truncate s.setup lock call) s = (.ok u, t)) : Fresh t := by
  obtain ⟨_, u, hlock, h⟩ := run_bind_eq_ok.mp h
  obtain ⟨-, rfl⟩ := run_lift_eq_ok.mp hlock
  obtain ⟨_, u, hwrite, hnote⟩ := run_bind_eq_ok.mp h
  exact (hfresh.written hwrite (fun files => readable_truncateFiles) hnote).1

/-- Loading a readable directory leaves it as it is. -/
theorem Readable.load_eq {files files' : LedgerFiles C} (h : Readable files) {store : LedgerStore C}
    {now : Nat} {loaded : LoadedLedger C}
    (hrun : run FileOp.exec (load store now) files = (.ok loaded, files')) : files' = files := by
  obtain ⟨stored, hread⟩ := h.run_readAll store
  obtain ⟨stored', u, hfirst, hrun⟩ := run_bind_eq_ok.mp hrun
  obtain ⟨-, rfl⟩ := Prod.mk.inj ((hread now).symm.trans (run_mapReject_eq_ok.mp hfirst))
  obtain ⟨_, u, hfold, hrun⟩ := run_bind_eq_ok.mp hrun
  obtain ⟨-, rfl⟩ := run_lift_eq_ok.mp hfold
  obtain ⟨_, u, hempty, hrun⟩ := run_bind_eq_ok.mp hrun
  obtain ⟨-, rfl⟩ := run_lift_eq_ok.mp hempty
  exact (Prod.mk.inj hrun).2.symm

/-- Building an inception reads, and changes nothing. -/
theorem run_mintInception_eq_ok {setup : Setup} {call : MintCall C} {built : BuiltEvent}
    (h : run StoreOp.exec (mintInception setup call) s = (.ok built, t)) : t = s := by
  rw [mintInception] at h
  cases hroot : call.root with
  | raw active reserve =>
    rw [hroot] at h
    exact (run_lift_eq_ok.mp h).2.symm
  | founded founder signer =>
    rw [hroot] at h
    obtain ⟨_, u, hsigner, h⟩ := run_bind_eq_ok.mp h
    obtain ⟨-, rfl⟩ := run_lift_eq_ok.mp hsigner
    obtain ⟨inception, u, hread, h⟩ := run_bind_eq_ok.mp h
    obtain ⟨files, hevent, rfl⟩ := run_onLedger_eq_ok.mp (run_mapReject_eq_ok.mp hread)
    rw [LedgerStore.readEvent, File.run_readEvent_bind, run_lift_eq_ok] at hevent
    obtain ⟨-, rfl⟩ := hevent
    obtain ⟨-, rfl⟩ := run_lift_eq_ok.mp h
    exact LedgerStorage.withFiles_filesOf s founder

/-- The keys of a new identity change no ledger and no index. -/
theorem run_writeOwnKeys_eq_ok {identity : IdentityId} {root : MintRoot C} {u : Unit}
    (h : run CoreOp.exec (writeOwnKeys identity root) s = (.ok u, t)) :
    t.setup = s.setup ∧ t.index = s.index ∧ t.home.files = s.home.files := by
  cases root with
  | raw active reserve =>
    obtain ⟨-, rfl⟩ := Prod.mk.inj h
    exact ⟨rfl, rfl, rfl⟩
  | founded founder signer =>
    obtain ⟨-, rfl⟩ := Prod.mk.inj h
    exact ⟨rfl, rfl, rfl⟩

/-- Whether a call carries a profile. -/
def MintCall.Named (call : MintCall C) : Prop := call.displayName.isSome ∨ call.email.isSome

/-- The profile of a new identity is appended where every other ledger is fresh. -/
theorem fresh_appendProfileUpdate {l : LedgerId} {call : MintCall C} {u : Unit}
    (hothers : ∀ l', l' ≠ l → FreshAt s l') (hreadable : Readable (s.filesOf l))
    (h : run StoreOp.exec (appendProfileUpdate s.setup l call) s = (.ok u, t)) : Fresh t := by
  obtain ⟨state, u, hwrite, h⟩ := run_bind_eq_ok.mp h
  obtain ⟨_, u', hnote, h⟩ := run_bind_eq_ok.mp h
  obtain ⟨-, rfl⟩ := run_lift_eq_ok.mp h
  obtain ⟨files, hok, rfl⟩ := run_onLedger_eq_ok.mp hwrite
  refine (fresh_note (fun l' hl' => ?_) ?_ hnote).1
  · refine (hothers l' hl').congr rfl ?_ rfl
    rw [LedgerStorage.filesOf_withFiles, if_neg hl']
  · rw [LedgerStorage.filesOf_withFiles, if_pos rfl]
    exact Steady.profileFiles _ _ _ _ _ _ hreadable hok

/-- Minting an identity with a profile keeps the index fresh. -/
theorem Fresh.createIdentity (hfresh : Fresh s) {call : MintCall C} (hnamed : call.Named)
    {a : CreatedIdentity C}
    (h : run CoreOp.exec (createIdentity s.setup call) s = (.ok a, t)) : Fresh t := by
  obtain ⟨_, u, hlift, h⟩ := run_bind_eq_ok.mp h
  obtain ⟨-, rfl⟩ := run_lift_eq_ok.mp hlift
  obtain ⟨_, u, hlift, h⟩ := run_bind_eq_ok.mp h
  obtain ⟨-, rfl⟩ := run_lift_eq_ok.mp hlift
  obtain ⟨built, u, hbuilt, h⟩ := run_bind_eq_ok.mp h
  rw [run_onStore] at hbuilt
  obtain rfl := run_mintInception_eq_ok hbuilt
  obtain ⟨_, u', hlift, h⟩ := run_bind_eq_ok.mp h
  obtain ⟨-, rfl⟩ := run_lift_eq_ok.mp hlift
  obtain ⟨_, keyed, hkeys, h⟩ := run_bind_eq_ok.mp h
  obtain ⟨hsetup, hindex, hfiles⟩ := run_writeOwnKeys_eq_ok hkeys
  obtain ⟨_, minted, hminted, h⟩ := run_bind_eq_ok.mp h
  rw [run_onStore] at hminted
  obtain ⟨files, hinception, rfl⟩ := run_onLedger_eq_ok.mp hminted
  obtain ⟨_, noted, hnoted, h⟩ := run_bind_eq_ok.mp h
  obtain ⟨-, rfl⟩ := Prod.mk.inj hnoted
  obtain ⟨_, profiled, hprofile, h⟩ := run_bind_eq_ok.mp h
  rw [run_onStore, profileIfGiven, if_pos (by simpa [MintCall.Named] using hnamed)] at hprofile
  have hkeyed : Fresh keyed := fun l => (hfresh l).congr hsetup
    (by rw [LedgerStorage.filesOf, LedgerStorage.filesOf, hfiles]) (by rw [hindex])
  rw [← hsetup] at hprofile
  have hprofiled : Fresh profiled := by
    refine fresh_appendProfileUpdate (fun l' hl' => ?_) ?_ hprofile
    · refine (hkeyed l').congr rfl ?_ rfl
      exact (LedgerStorage.filesOf_withFiles keyed _ l' files).trans (if_neg hl')
    · change Readable ((keyed.withFiles built.eventId.toIdentity files).filesOf _)
      rw [LedgerStorage.filesOf_withFiles, if_pos rfl]
      exact Steady.inceptionFiles _ _ _ _ _ _ (hkeyed built.eventId.toIdentity).readable hinception
  obtain ⟨loaded, answered, hload, h⟩ := run_bind_eq_ok.mp h
  obtain ⟨-, rfl⟩ := Prod.mk.inj h
  rw [run_onStore, run_mapReject_eq_ok] at hload
  obtain ⟨files', hread, rfl⟩ := run_onLedger_eq_ok.mp hload
  rw [(hprofiled built.eventId.toIdentity).readable.load_eq hread,
    LedgerStorage.withFiles_filesOf]
  exact hprofiled

end Operations

/-! ## Opening a home -/

/-- A ledger without a directory has no files in it. -/
def NodeHome.Housed (home : NodeHome C) : Prop :=
  ∀ l, (home.files.get l).present = false →
    (home.files.get l).events = .empty ∧ (home.files.get l).headFile = none

theorem NodeHome.nodup_ledgers (home : NodeHome C) : home.ledgers.Nodup :=
  (home.files.listed.nodup_keys).sublist (List.filter_sublist.map _)

/-- A ledger that is not listed has no files. -/
theorem NodeHome.present_of_not_mem {home : NodeHome C} {l : LedgerId} (h : l ∉ home.ledgers) :
    (home.files.get l).present = false := by
  by_contra hpresent
  rw [Bool.not_eq_false] at hpresent
  refine h (List.mem_map.mpr ⟨(l, home.files.get l), List.mem_filter.mpr ⟨?_, hpresent⟩, rfl⟩)
  rw [← SortedMap.get?_eq_some, Assignment.listed_eq_some]
  refine ⟨rfl, fun hnone => ?_⟩
  rw [hnone] at hpresent
  exact absurd hpresent (by simp [LedgerFiles.none])

/-- Reading directories one after another puts what each gives into the index. -/
theorem run_loadAll_eq_ok {setup : Setup} {clock : LedgerId → LoadClock} (ledgers : List LedgerId) :
    ∀ {s t : LedgerStorage C} {index index' : Index C}, ledgers.Nodup →
      (∀ l ∈ ledgers, index.ledgers.get? l = none) →
      run StoreOp.exec (loadAll setup clock index ledgers) s = (.ok index', t) →
      t.setup = s.setup ∧
      (∀ l ∉ ledgers, t.filesOf l = s.filesOf l ∧
        index'.ledgers.get? l = index.ledgers.get? l) ∧
      ∀ l ∈ ledgers, ∀ clock', run FileOp.exec (loadEntry (setup.ledger l) clock') (t.filesOf l) =
        (.ok (index'.ledgers.get? l), t.filesOf l) := by
  induction ledgers with
  | nil =>
    intro s t index index' _ _ h
    obtain ⟨hindex, rfl⟩ := Prod.mk.inj h
    obtain rfl := Except.ok.inj hindex
    exact ⟨rfl, fun _ _ => ⟨rfl, rfl⟩, by simp⟩
  | cons first ledgers ih =>
    intro s t index index' hnodup hnone h
    obtain ⟨hfirst, hnodup⟩ := List.nodup_cons.mp hnodup
    obtain ⟨entry, u, hload, h⟩ := run_bind_eq_ok.mp h
    obtain ⟨files, hread, rfl⟩ := run_onLedger_eq_ok.mp hload
    have hentry := (run_loadEntry_eq_ok hread).2
    have hget : ∀ l, (entry.elim index (index.add first)).ledgers.get? l =
        if l = first then entry else index.ledgers.get? l := by
      intro l
      cases entry with
      | some entry => exact Index.get?_add ..
      | none =>
        by_cases hl : l = first
        · rw [if_pos hl, hl]
          exact hnone first List.mem_cons_self
        · rw [if_neg hl]
          rfl
    have hrest : ∀ l ∈ ledgers, (entry.elim index (index.add first)).ledgers.get? l = none := by
      intro l hl
      have hne : l ≠ first := fun heq => hfirst (heq ▸ hl)
      rw [hget, if_neg hne]
      exact hnone l (List.mem_cons_of_mem _ hl)
    obtain ⟨hsetup, hothers, hloaded⟩ := ih hnodup hrest h
    refine ⟨hsetup, fun l hl => ?_, fun l hl => ?_⟩
    · obtain ⟨hne, hnot⟩ := not_or.mp (mt List.mem_cons.mpr hl)
      obtain ⟨hfiles, hkept⟩ := hothers l hnot
      rw [hfiles, hkept, LedgerStorage.filesOf_withFiles, if_neg hne, hget, if_neg hne]
      exact ⟨rfl, rfl⟩
    · rcases List.mem_cons.mp hl with rfl | hmem
      · obtain ⟨hfiles, hkept⟩ := hothers l hfirst
        rw [hfiles, hkept, LedgerStorage.filesOf_withFiles, if_pos rfl, hget, if_pos rfl]
        exact hentry
      · exact hloaded l hmem

/-- An opened home is fresh. -/
theorem fresh_openHome {setup : Setup} {home : NodeHome C} {endpoint : EndpointId C}
    {clock : LedgerId → LoadClock} {s : LedgerStorage C} (hhome : home.Housed)
    (h : LedgerStorage.openHome setup home endpoint clock = .ok s) : Fresh s := by
  rw [LedgerStorage.openHome] at h
  rcases hrun : run StoreOp.exec (reload setup clock)
    (⟨setup, home, Index.default, ⟨endpoint, []⟩⟩ : LedgerStorage C) with ⟨r, t⟩
  rw [hrun] at h
  cases r with
  | error e => simp at h
  | ok u =>
    obtain rfl := Except.ok.inj h
    rw [reload, Shared.run_listLedgers_bind] at hrun
    obtain ⟨index, loaded, hload, hrun⟩ := run_bind_eq_ok.mp hrun
    obtain ⟨hsetup, hothers, hloaded⟩ := run_loadAll_eq_ok _ home.nodup_ledgers (by simp [Index.default])
      hload
    rw [Shared.run_lockIndex_bind, run_andFinally] at hrun
    obtain ⟨-, rfl⟩ := Prod.mk.inj hrun
    intro l
    change ∀ clock', run FileOp.exec (loadEntry (loaded.setup.ledger l) clock') (loaded.filesOf l) =
      (.ok (index.ledgers.get? l), loaded.filesOf l)
    rw [hsetup]
    by_cases hl : l ∈ home.ledgers
    · exact hloaded l hl
    · obtain ⟨hfiles, hnone⟩ := hothers l hl
      obtain ⟨hevents, hhead⟩ := hhome l (NodeHome.present_of_not_mem hl)
      rw [hfiles, hnone]
      intro clock'
      have hempty : run FileOp.exec ((setup.ledger l : LedgerStore C).readAll clock'.rebuilt)
          (home.files.get l) = (.ok [], home.files.get l) := by
        have hhead := @run_head_empty C (home.files.get l) (setup.ledger l) hhead
          (by intro seq; rw [hevents]; rfl) clock'.rebuilt
        exact run_bind_of_ok hhead
      exact run_bind_of_ok hempty

/-! ## Runs -/

/-- One successful operation keeps the index fresh, unless it mints an identity without a
profile. -/
theorem Fresh.perform {s t : LedgerStorage C} (hfresh : Fresh s) {call : CoreCall C} {u : Unit}
    (hnamed : ∀ mint, call = .createIdentity mint → mint.Named)
    (h : s.perform call = (.ok u, t)) : Fresh t := by
  cases call with
  | createIdentity mint =>
    rcases hrun : run CoreOp.exec (Node.createIdentity s.setup mint) s with ⟨r, t'⟩
    rw [LedgerStorage.perform, hrun] at h
    obtain ⟨hok, rfl⟩ := Prod.mk.inj h
    cases r with
    | error e => simp [Except.map] at hok
    | ok created => exact hfresh.createIdentity (hnamed mint rfl) hrun
  | append lock call =>
    rcases hrun : run StoreOp.exec (Node.append s.setup lock call) s with ⟨r, t'⟩
    rw [LedgerStorage.perform, hrun] at h
    obtain ⟨hok, rfl⟩ := Prod.mk.inj h
    cases r with
    | error e => simp [Except.map] at hok
    | ok appended => exact hfresh.append hrun
  | storeEvents lock call =>
    rcases hrun : run StoreOp.exec (Node.storeEvents s.setup lock call) s with ⟨r, t'⟩
    rw [LedgerStorage.perform, hrun] at h
    obtain ⟨hok, rfl⟩ := Prod.mk.inj h
    cases r with
    | error e => simp [Except.map] at hok
    | ok stored => exact hfresh.storeEvents hrun
  | truncate lock call => exact hfresh.truncate h

/-- Successful calls keep a storage fresh where every creation is named. -/
theorem Fresh.performAll {calls : List (CoreCall C)} : ∀ {s t : LedgerStorage C}, Fresh s →
    (∀ mint, .createIdentity mint ∈ calls → mint.Named) → s.performAll calls = .ok t → Fresh t := by
  induction calls with
  | nil =>
    intro s t hfresh _ h
    obtain rfl := Except.ok.inj h
    exact hfresh
  | cons call calls ih =>
    intro s t hfresh hnamed h
    rw [LedgerStorage.performAll] at h
    rcases hcall : s.perform call with ⟨r, u⟩
    rw [hcall] at h
    cases r with
    | error e => simp at h
    | ok done =>
      refine ih (hfresh.perform (fun mint hmint => hnamed mint ?_) hcall)
        (fun mint hmint => hnamed mint (List.mem_cons_of_mem _ hmint)) h
      rw [hmint]
      exact List.mem_cons_self

/-- In every run of successful writes over an opened home in which each identity is minted with
a name or an email, the index keeps an entry of a ledger exactly when loading its files gives
one, and keeps that one. -/
theorem index_holds_what_is_on_disk {setup : Setup} {home : NodeHome C} {endpoint : EndpointId C}
    {clock : LedgerId → LoadClock} {s t : LedgerStorage C} {calls : List (CoreCall C)}
    (hhome : home.Housed) (hopen : LedgerStorage.openHome setup home endpoint clock = .ok s)
    (hnamed : ∀ mint, .createIdentity mint ∈ calls → mint.Named)
    (hrun : s.performAll calls = .ok t) (l : LedgerId) (reading : LoadClock) :
    run FileOp.exec (loadEntry (t.setup.ledger l) reading) (t.filesOf l) =
      (.ok (t.index.ledgers.get? l), t.filesOf l) :=
  (fresh_openHome hhome hopen).performAll hnamed hrun l reading

/-! ## A sample wallet -/

/-- Mint an identity under fresh keys, with or without a name. -/
def sampleMint (displayName : Option String) : MintCall Crypto.sample where
  aliasHeldBy := none
  declaredKind := .person
  root := .raw (SecretKey.sample 1) (SecretKey.sample 3)
  nonce := .ofNat nonceBytes 4
  displayName := displayName
  email := none
  signer := some (SecretKey.sample 1)
  createdAtMs := 1000
  rebuilt := 1
  written := 2
  profile := ⟨3, 4, 2000, 5, ⟨6, 7⟩⟩
  answered := 8

/-- An empty home after one identity is minted. -/
def sampleMinted (displayName : Option String) : LedgerStorage Crypto.sample :=
  (sampleHome.perform (.createIdentity (sampleMint displayName))).2

theorem housed_empty (identities : SortedMap IdentityId IdentityFiles) :
    (NodeHome.empty identities : NodeHome C).Housed := fun _ _ => ⟨rfl, rfl⟩

/-- Minted with a name, an identity is in the index as it is on disk. -/
theorem index_holds_what_is_on_disk_sampleMint :
    sampleHome.performAll [.createIdentity (sampleMint (some "a"))] =
        .ok (sampleMinted (some "a")) ∧
      run FileOp.exec (loadEntry (sampleSetup.ledger sampleLedgerId) ⟨1, 2⟩)
          ((sampleMinted (some "a")).filesOf sampleLedgerId) =
        (.ok ((sampleMinted (some "a")).index.ledgers.get? sampleLedgerId),
          (sampleMinted (some "a")).filesOf sampleLedgerId) := by
  have hok : (sampleHome.perform (.createIdentity (sampleMint (some "a")))).1 = .ok () := by
    decide +kernel
  have hrun : sampleHome.performAll [.createIdentity (sampleMint (some "a"))] =
      .ok (sampleMinted (some "a")) := by
    rw [LedgerStorage.performAll, ← Prod.eta (sampleHome.perform _), hok]
    rfl
  have hsetup : (sampleMinted (some "a")).setup = sampleSetup := by decide +kernel
  refine ⟨hrun, ?_⟩
  rw [← hsetup]
  refine index_holds_what_is_on_disk (housed_empty _)
    (openHome_empty sampleSetup _ _ fun _ => ⟨0, 0⟩) (fun mint hmint => ?_) hrun sampleLedgerId ⟨1, 2⟩
  obtain rfl : mint = sampleMint (some "a") := by simpa using hmint
  exact .inl rfl

/-- Minted without a name or an email, an identity loads from disk and is in no index. -/
theorem bare_mint_not_indexed :
    sampleHome.performAll [.createIdentity (sampleMint none)] = .ok (sampleMinted none) ∧
      (sampleMinted none).index.ledgers.get? sampleLedgerId = none ∧
      ((run FileOp.exec (loadEntry (sampleSetup.ledger sampleLedgerId) ⟨1, 2⟩)
        ((sampleMinted none).filesOf sampleLedgerId)).1.toOption.bind id).isSome = true := by
  have hok : (sampleHome.perform (.createIdentity (sampleMint none))).1 = .ok () := by
    decide +kernel
  refine ⟨?_, by decide +kernel, by decide +kernel⟩
  rw [LedgerStorage.performAll, ← Prod.eta (sampleHome.perform _), hok]
  rfl

end Mabel.Node

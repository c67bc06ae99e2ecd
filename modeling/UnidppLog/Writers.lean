/-
# Several servers on one journal

Nothing keeps a second server from being started on the journal of one that runs: opening a
journal takes no lock on the file. Each server numbers its records from what it has in memory,
and writes them behind whatever the file holds by then. As long as every server that appends
has all of what was written, the journal is that of a single server. The first append of a
server that is behind gives a number away that is taken, and from then on no server opens the
journal, whatever is appended to it.

Here an append is one step: the lines of two servers do not run into one another.
-/

import UnidppLog.Journal.Shared
import UnidppLog.Acceptance
import UnidppLog.Transition.Run

namespace UnidppLog

open Journal (InOrder Doubled Shared)

section

variable [Unidpp]

/-- The journal, the servers that have opened it, and the records that were acknowledged, in
the order of their lines. A server that was stopped is one that does not append any more. -/
structure Writers where
  file : JournalFile
  stores : List LogStore
  written : List CommitRecord

namespace Writers

/-- A server is started on the journal, or one of them appends. -/
inductive Action
  | start
  | append (i : ℕ) (request : AppendRequest)

/-- No journal, and no server. -/
def absent : Writers where
  file := none
  stores := []
  written := []

/-- The records, and the entries that each server has of them. -/
def shared (w : Writers) : Shared CommitRecord where
  written := w.written
  views := w.stores.map LogStore.entries

variable [SerdeJson]

/-- A server is started if the journal opens. What it appends goes behind what the file holds
by then. -/
def step (w : Writers) : Action → Option Writers
  | .start => do
    match ← LogStore.open (some w.file) with
    | .error _ => none
    | .ok store => return { w with file := store.journal, stores := w.stores ++ [store] }
  | .append i request => do
    let store ← w.stores[i]?
    match ← { store with journal := w.file }.append request .written with
    | (.error _, _) => none
    | (.ok record, store) => return {
        file := store.journal
        stores := w.stores.set i store
        written := w.written ++ [record] }

/-- The server that appends has all of what was written. -/
def UpToDate (w : Writers) : Action → Prop
  | .start => True
  | .append i _ => ∀ store, w.stores[i]? = some store → store.entries = w.written

/-- The journal opens. -/
def Opens (w : Writers) : Prop :=
  ∃ store, LogStore.open (some w.file) = some (.ok store)

variable {w w' : Writers}

theorem start_cases (h : w.step .start = some w') :
    ∃ store, LogStore.open (some w.file) = some (.ok store) ∧
      w' = { w with file := store.journal, stores := w.stores ++ [store] } := by
  simp only [step, Option.bind_eq_bind, Option.bind_eq_some_iff] at h
  obtain ⟨result, hopen, h⟩ := h
  cases result with
  | error e => simp at h
  | ok store => exact ⟨store, hopen, (Option.some.inj h).symm⟩

theorem append_cases {i : ℕ} {request : AppendRequest}
    (h : w.step (.append i request) = some w') :
    ∃ store record store', w.stores[i]? = some store ∧
      { store with journal := w.file }.append request .written = some (.ok record, store') ∧
        w' = { file := store'.journal, stores := w.stores.set i store',
               written := w.written ++ [record] } := by
  simp only [step, Option.bind_eq_bind, Option.bind_eq_some_iff] at h
  obtain ⟨store, hi, ⟨result, store'⟩, hrun, h⟩ := h
  cases result with
  | error e => simp at h
  | ok record => exact ⟨store, record, store', hi, hrun, (Option.some.inj h).symm⟩

/-- The journal is the lines of what was written, every server is a valid store of its
entries, and these are a beginning of the journal as long as it is in order. -/
structure Sound (w : Writers) : Prop where
  file_eq : w.file.getD [] = lineCodec.written w.written
  exists_file : w.stores ≠ [] → w.file.isSome
  valid : ∀ store ∈ w.stores, store.Valid
  shared : w.shared.Sound CommitRecord.number
  length_lt : InOrder CommitRecord.number w.written → w.written.length < 2 ^ 64

theorem sound_absent : absent.Sound where
  file_eq := rfl
  exists_file h := absurd rfl h
  valid store hmem := by simp [absent] at hmem
  shared := by
    refine ⟨.inl Journal.inOrder_nil, fun _ view hview => ?_⟩
    simp [Writers.shared, absent] at hview
  length_lt _ := by simp [absent]

/-- What a journal opens to is what was written to it. -/
theorem Sound.entries_of_open (hlaw : lineCodec.Lawful) (h : w.Sound) {store : LogStore}
    (hopen : LogStore.open (some w.file) = some (.ok store)) :
    store.entries = w.written ∧ store.Valid ∧
      store.journal = some (lineCodec.written w.written) := by
  obtain ⟨⟨texts, hlines, hreplays⟩, hvalid, hjournal⟩ := LogStore.recovers_of_open hopen
  rw [h.file_eq] at hlines hjournal
  rw [hlaw.lines_written] at hlines
  obtain rfl := List.map_injective_iff.mpr (fun _ _ heq => Except.ok.inj heq) hlines
  refine ⟨?_, hvalid, hjournal⟩
  rw [hreplays.eq_of_written hlaw, List.nil_append]

/-- The journal opens as long as it is in order. -/
theorem Sound.opens_iff (hlaw : lineCodec.Lawful) (h : w.Sound) :
    w.Opens ↔ InOrder CommitRecord.number w.written := by
  constructor
  · rintro ⟨store, hopen⟩ i record hi
    obtain ⟨hentries, hvalid, -⟩ := h.entries_of_open hlaw hopen
    rw [← hentries] at hi
    obtain ⟨hlt, -⟩ := List.getElem?_eq_some_iff.mp hi
    have hlength := hvalid.length_lt
    rw [CommitRecord.number, hvalid.seq_eq i record hi, UInt64.toNat_ofNat',
      Nat.mod_eq_of_lt (hlt.trans hlength)]
  · intro horder
    have hroom := h.length_lt horder
    cases hfile : w.file with
    | none => exact ⟨_, by rw [hfile]; exact LogStore.open_absent⟩
    | some bytes =>
        have hfile_eq := h.file_eq
        rw [hfile, Option.getD_some] at hfile_eq
        have hnumbered : Journal.NumberedFrom lineCodec CommitRecord.number 0
            (w.written.map fun record => String.ofList (lineCodec.text record)) :=
          hlaw.numberedFrom fun i record hi => (horder i record hi).trans (Nat.zero_add i).symm
        rw [Opens, hfile, hfile_eq]
        refine (LogStore.exists_open_iff (hlaw.lines_written w.written) ?_).mpr
          hnumbered.acceptable
        rwa [List.length_map]

/-- A step keeps the journal the lines of what was written. It is in order then if it was, and
who appends has all of it. -/
theorem Sound.of_step (hforms : RecordTextForms) (hjson : SerdeJson.Conforms) (h : w.Sound)
    {action : Action} (hstep : w.step action = some w') :
    w'.Sound ∧ (InOrder CommitRecord.number w'.written ↔
      InOrder CommitRecord.number w.written ∧ w.UpToDate action) := by
  have hlaw := lineCodec_lawful hforms hjson
  cases action with
  | start =>
      obtain ⟨store, hopen, rfl⟩ := start_cases hstep
      obtain ⟨hentries, hvalid, hjournal⟩ := h.entries_of_open hlaw hopen
      refine ⟨⟨?_, fun _ => ?_, ?_, ?_, h.length_lt⟩, (and_iff_left trivial).symm⟩
      · rw [hjournal, Option.getD_some]
      · rw [hjournal, Option.isSome_some]
      · intro other hmem
        rcases List.mem_append.mp hmem with hold | hnew
        · exact h.valid other hold
        · rwa [List.mem_singleton.mp hnew]
      · have hjoin := h.shared.join
        rw [Shared.join, Writers.shared, ← hentries] at hjoin
        simpa [Writers.shared, hentries] using hjoin
  | append i request =>
      obtain ⟨store, record, store', hi, hrun, rfl⟩ := append_cases hstep
      have hmem := List.mem_of_getElem? hi
      have hvalid := (h.valid store hmem).withJournal w.file
      obtain ⟨-, hvalid', hentries, hjournal⟩ := hvalid.append hjson hrun
      obtain ⟨hnumber, -⟩ := hvalid.getElem?_of_append hjson hrun
      have hview : w.shared.views[i]? = some store.entries := by
        rw [Writers.shared, List.getElem?_map, hi, Option.map_some]
      obtain ⟨hshared, horder⟩ := h.shared.write hview hnumber
      have huptodate : store.entries = w.written ↔ w.UpToDate (.append i request) := by
        constructor
        · intro heq other hother
          rwa [Option.some.inj (hother.symm.trans hi)]
        · intro hall
          exact hall store hi
      refine ⟨⟨?_, fun _ => ?_, ?_, ?_, fun hnext => ?_⟩, ?_⟩
      · obtain ⟨bytes, hfile⟩ := Option.isSome_iff_exists.mp
          (h.exists_file (List.ne_nil_of_mem hmem))
        have hfile_eq := h.file_eq
        rw [hfile, Option.getD_some] at hfile_eq
        rw [hjournal, hfile, Option.map_some, Option.getD_some, hfile_eq,
          Journal.Codec.written_concat]
      · obtain ⟨bytes, hfile⟩ := Option.isSome_iff_exists.mp
          (h.exists_file (List.ne_nil_of_mem hmem))
        rw [hjournal, hfile, Option.map_some, Option.isSome_some]
      · intro other hother
        rcases List.mem_or_eq_of_mem_set hother with hold | rfl
        · exact h.valid other hold
        · exact hvalid'
      · rw [Shared.write] at hshared
        simpa [Writers.shared, List.map_set, hentries] using hshared
      · obtain ⟨-, hall⟩ := horder.mp hnext
        have hall : store.entries = w.written := hall
        have hlength := hvalid'.length_lt
        rwa [hentries, hall] at hlength
      · rw [← huptodate]
        exact horder

/-- A run keeps the journal the lines of what was written. It is in order at the end if it was
at the beginning and every server had all of what was written when it appended. -/
theorem Sound.of_run (hforms : RecordTextForms) (hjson : SerdeJson.Conforms) (h : w.Sound)
    {actions : List Action} (hrun : Transition.run step w actions = some w') :
    w'.Sound ∧ (InOrder CommitRecord.number w'.written ↔
      InOrder CommitRecord.number w.written ∧ Transition.Along step UpToDate w actions) := by
  induction actions generalizing w with
  | nil =>
      obtain rfl := Option.some.inj hrun
      exact ⟨h, (and_iff_left trivial).symm⟩
  | cons action rest ih =>
      rw [Transition.run_cons] at hrun
      obtain ⟨next, hstep, hrest⟩ := Option.bind_eq_some_iff.mp hrun
      obtain ⟨hnext, horder⟩ := h.of_step hforms hjson hstep
      obtain ⟨hsound, horder'⟩ := ih hnext hrest
      refine ⟨hsound, ?_⟩
      rw [horder', horder, and_assoc]
      refine and_congr_right fun _ => and_congr_right fun _ => ⟨fun halong other hother => ?_, ?_⟩
      · rwa [← Option.some.inj (hstep.symm.trans hother)]
      · exact fun hall => hall next hstep

/-- In every run of servers on one journal, the file holds the lines of what they
acknowledged, in order. It opens exactly when every server had all of what was written
whenever it appended, and to just that. Otherwise two acknowledged records have one number,
and the journal does not open again however the run goes on. -/
theorem opens_iff_upToDate (hforms : RecordTextForms) (hjson : SerdeJson.Conforms)
    {actions : List Action} (hrun : Transition.run step absent actions = some w) :
    w.file.getD [] = lineCodec.written w.written ∧
    (w.Opens ↔ Transition.Along step UpToDate absent actions) ∧
    (∀ store, LogStore.open (some w.file) = some (.ok store) → store.entries = w.written) ∧
    (¬ w.Opens → ∃ (i j : ℕ) (record record' : CommitRecord), i < j ∧
      w.written[i]? = some record ∧ w.written[j]? = some record' ∧ record.seq = record'.seq) ∧
    ∀ more w', ¬ w.Opens → Transition.run step w more = some w' → ¬ w'.Opens := by
  have hlaw := lineCodec_lawful hforms hjson
  obtain ⟨hsound, horder⟩ := sound_absent.of_run hforms hjson hrun
  have hopens := hsound.opens_iff hlaw
  refine ⟨hsound.file_eq, ?_, fun store hopen => (hsound.entries_of_open hlaw hopen).1,
    fun hnot => ?_, fun more w' hnot hmore hopens' => ?_⟩
  · rw [hopens, horder]
    exact and_iff_right Journal.inOrder_nil
  · rw [hopens] at hnot
    obtain ⟨i, j, record, record', hij, hi, hj, hnumber⟩ := hsound.shared.order.resolve_left hnot
    exact ⟨i, j, record, record', hij, hi, hj, UInt64.toNat_inj.mp hnumber⟩
  · obtain ⟨hsound', horder'⟩ := hsound.of_run hforms hjson hmore
    exact hnot (hopens.mpr (horder'.mp ((hsound'.opens_iff hlaw).mp hopens')).1)

end Writers

end

namespace Sample

/-- Two servers that were both started on a journal that is not there yet: each gives its
first record the number zero, and the journal opens no more. -/
theorem opens_iff_upToDate_of_two :
    ∃ w : Writers,
      Transition.run Writers.step .absent [.start, .start, .append 0 (request 1 "dpp:1"),
        .append 1 (request 2 "dpp:2")] = some w ∧
      w.written.map CommitRecord.seq = [0, 0] ∧
      (∀ store, LogStore.open (some w.file) ≠ some (.ok store)) := by
  have hrun : ((Transition.run Writers.step .absent [.start, .start,
      .append 0 (request 1 "dpp:1"), .append 1 (request 2 "dpp:2")]).map fun w =>
        w.written.map CommitRecord.seq) = some [0, 0] := by
    decide +kernel
  obtain ⟨w, hw, hseqs⟩ := Option.map_eq_some_iff.mp hrun
  obtain ⟨-, -, hentries, -⟩ := Writers.opens_iff_upToDate recordTextForms serdeJson_conforms hw
  refine ⟨w, hw, hseqs, fun store hopen => ?_⟩
  have hsecond : (store.entries.map CommitRecord.seq)[1]? = some 0 := by
    rw [hentries store hopen, hseqs]
    rfl
  rw [List.getElem?_map, Option.map_eq_some_iff] at hsecond
  obtain ⟨second, hi, hseq⟩ := hsecond
  have hone := (LogStore.valid_of_open hopen).seq_eq 1 second hi
  rw [hseq] at hone
  exact absurd hone (by decide)

end Sample

end UnidppLog

/-
# A sample log

The log of a journal that is not there yet, with the sample crates, and what is
appended to it in the examples.
-/

import UnidppLog.StoreSpec
import UnidppLog.Sample.Crates

namespace UnidppLog.Sample

def logId : String :=
  "unidpp-log-1"

def operator : KeyPair where
  suite := .ed25519
  seed := Text.encode "unidpp-log-dev-seed-v1".toList

def request (second : Fin 60) (subject : String) : AppendRequest where
  subject := subject
  commitment := digest (Text.encode subject.toList)
  saltRef := none
  loggedAt := second

/-- The log of a journal that is not there yet. -/
def empty : LogStore where
  tree := .new
  entries := []
  journal := some []

theorem valid_empty : empty.Valid :=
  LogStore.valid_empty _

theorem open_empty : LogStore.open (some none) = some (.ok empty) :=
  rfl

theorem empty_reachable : empty.Reachable :=
  ⟨some none, empty, open_empty, .refl⟩

/-- One record, and a second one behind it. -/
theorem exists_two :
    ∃ one two, empty.append (request 1 "dpp:1") .written =
        some (.ok (empty.nextRecord (request 1 "dpp:1")), one) ∧
      one.append (request 2 "dpp:2") .written =
        some (.ok (one.nextRecord (request 2 "dpp:2")), two) ∧
        one.entries.length = 1 := by
  obtain ⟨one, hone⟩ := valid_empty.exists_append serdeJson_conforms (request 1 "dpp:1")
    (by decide)
  obtain ⟨-, hvalid, hentries, -⟩ := valid_empty.append serdeJson_conforms hone
  have hlen : one.entries.length = 1 := by
    rw [hentries]
    rfl
  obtain ⟨two, htwo⟩ := hvalid.exists_append serdeJson_conforms (request 2 "dpp:2")
    (by rw [hlen]; decide)
  exact ⟨one, two, hone, htwo, hlen⟩

end UnidppLog.Sample

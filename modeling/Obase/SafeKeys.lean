import Obase.CheckpointStore
import Obase.Concrete
import Obase.DebouncedMemoryQueue.Keys
import Obase.KnowledgeStore.Files

namespace Obase
set_option autoImplicit true
open Json

/-- When the operations on two keys of a store leave each other's entries alone: the characters that
the names of entries cannot have must not make the keys alike. -/
theorem keys_apart_iff [FloatText F] (gzip : Gzip β) (U : Casing) (printable : Char → Bool)
    (base : Path) {a b : String} (hab : a ≠ b) :
    ((CheckpointStore.keyed (F := F) gzip).Apart a b ↔
      CheckpointStore.safe a ≠ CheckpointStore.safe b) ∧
    ((KnowledgeStore.keyed U printable base).Apart a b ↔
      KnowledgeStore.safe a ≠ KnowledgeStore.safe b ∨ '\x00' ∈ a.toList) ∧
    ((DebouncedMemoryQueue.keyed (F := F) base).Apart a b ↔
      '\x00' ∉ a.toList ∧ '\x00' ∉ b.toList ∧
          DebouncedMemoryQueue.safe a ≠ DebouncedMemoryQueue.safe b ∨
        '\x00' ∈ a.toList ∧ '\x00' ∈ b.toList) :=
  ⟨CheckpointStore.keyed_apart_iff hab, KnowledgeStore.keyed_apart_iff hab,
    DebouncedMemoryQueue.keyed_apart_iff hab⟩

/-- Texts that are stored as they are. -/
def uncompressed : Gzip (List Char) := ⟨id, some, fun _ => rfl⟩

theorem sessions_apart :
    (CheckpointStore.keyed (F := WholeFloat) uncompressed).Apart "session:1" "session:2" ∧
      (KnowledgeStore.keyed .ascii (fun c => c.toNat < 128) ["home"]).Apart
        "session:1" "session:2" ∧
      (DebouncedMemoryQueue.keyed (F := WholeFloat) ["home"]).Apart "session:1" "session:2" := by
  obtain ⟨h₁, h₂, h₃⟩ := keys_apart_iff (F := WholeFloat) uncompressed .ascii
    (fun c => c.toNat < 128) ["home"] (show "session:1" ≠ "session:2" by decide)
  exact ⟨h₁.2 (by decide), h₂.2 (by decide), h₃.2 (by decide)⟩

/-- A slash and a colon are replaced by the same character. -/
theorem slash_colon_alias :
    ¬ (CheckpointStore.keyed (F := WholeFloat) uncompressed).Apart "a/b" "a:b" ∧
      ¬ (KnowledgeStore.keyed .ascii (fun c => c.toNat < 128) ["home"]).Apart "a/b" "a:b" ∧
      ¬ (DebouncedMemoryQueue.keyed (F := WholeFloat) ["home"]).Apart "a/b" "a:b" := by
  refine ⟨fun h => ?_, fun h => ?_, fun h => ?_⟩
  · exact absurd ((CheckpointStore.keyed_apart_iff (by decide)).1 h) (by decide)
  · exact absurd ((KnowledgeStore.keyed_apart_iff (by decide)).1 h) (by decide)
  · exact absurd ((DebouncedMemoryQueue.keyed_apart_iff (by decide)).1 h) (by decide)

end Obase

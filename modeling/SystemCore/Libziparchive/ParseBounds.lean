import SystemCore.Libziparchive.Indexing

/-!
# The scan and the end of the directory

The header of a record is compared with the end of the directory before it is read. Its name is
not: it is checked and hashed first, and only then it is found out that the record ends behind
the directory.
-/
namespace SystemCore.Libziparchive

open Lib Lib.Runs

theorem Indexed.run_bounds {d : Directory} {k : Nat} :
    ∀ {s : Scan} {entries : List ZipEntryName}, Indexed d s entries →
      entries.length + k ≤ d.numEntries.toNat →
      (Runs.run (fun s (_ : Unit) => Libziparchive.parseRecord d s) s (List.replicate k ()) ≠
          .error .outOfRange ↔
        Along (fun s (_ : Unit) => Libziparchive.parseRecord d s)
          (fun s _ => NameInDirectory d s.ptr) s (List.replicate k ())) ∧
      Runs.run (fun s (_ : Unit) => Libziparchive.parseRecord d s) s (List.replicate k ()) ≠
        .error .endless := by
  have hsize := (hashTableSize_spec d.numEntries).2
  induction k with
  | zero =>
    intro s entries _ _
    exact ⟨⟨fun _ => trivial, fun _ h => nomatch h⟩, fun h => nomatch h⟩
  | succ k ih =>
    intro s entries h hlen
    have hscanned := h.parseRecord (by omega)
    rw [List.replicate_succ]
    simp only [Runs.run, Along]
    cases hstep : Libziparchive.parseRecord d s with
    | error e =>
      rw [hstep] at hscanned
      cases hscanned with
      | refused result hname => simp [hname]
      | outOfRange hname => simp [hname]
    | ok s₁ =>
      rw [hstep] at hscanned
      cases hscanned with
      | added hname _ _ hindexed =>
        have hrest := ih hindexed (by rw [List.length_append, List.length_singleton]; omega)
        simp only [hname, true_and, Except.ok.injEq, forall_eq']
        exact hrest

/-- The scan of a directory ends, and it reads only inside the directory exactly if each record
whose name it comes to has its name inside the directory or is refused before the end. -/
theorem parse_in_bounds_iff (d : Directory) :
    (parseZipArchive d ≠ .error .outOfRange ↔
      Along (fun s (_ : Unit) => parseRecord d s) (fun s _ => NameInDirectory d s.ptr) Scan.start
        (List.replicate d.numEntries.toNat ())) ∧
      parseZipArchive d ≠ .error .endless :=
  (indexed_start d).run_bounds (Nat.le_of_eq (Nat.zero_add _))

/-- A directory with one record header and nothing behind it. -/
def nameBehindEnd : Directory where
  directoryOffset := 1
  directoryMap := LittleEndian.toBytes 4 CentralDirectoryRecord.kSignature ++
    List.replicate 24 0 ++ LittleEndian.toBytes 2 1 ++ List.replicate 16 0
  numEntries := 1

/-- A file with this directory from its second byte on. -/
def shortFile : List UInt8 :=
  [0] ++ nameBehindEnd.directoryMap ++ LittleEndian.toBytes 4 EocdRecord.kSignature ++
    List.replicate 6 0 ++ LittleEndian.toBytes 2 1 ++ LittleEndian.toBytes 4 46 ++
    LittleEndian.toBytes 4 1 ++ LittleEndian.toBytes 2 0

/-- The name of the only record is to be one byte long, and this byte is not there. -/
theorem parse_reads_behind_end :
    mapCentralDirectory ⟨true, true, true, fun _ => true⟩ shortFile = .ok nameBehindEnd ∧
      parseZipArchive nameBehindEnd = .error .outOfRange :=
  ⟨by decide +kernel, rfl⟩

end SystemCore.Libziparchive

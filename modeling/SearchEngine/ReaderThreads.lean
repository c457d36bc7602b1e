import SearchEngine.IndexRoundTrip
import SearchEngine.Library.Transition
import SearchEngine.SharedOffset

/-! Two threads that look things up in one index file, each with a reader of
its own. -/

namespace SearchEngine

open FileProgram HashTableReader Program SharedStream Transition

variable {α β : Type} {bufSize : Nat} {image : FileImage}

/-- The two readers of a FileIndexReader with their streams, and the offset
that these share. -/
structure DupReaders where
  dtr : HashTableReader
  dtrFile : Stream
  itr : HashTableReader
  itrFile : Stream
  offset : Nat

/-- A thread, with the lookups that it has still to do, the first of them
perhaps in part, and what the others returned. -/
structure ReaderThread (α : Type) where
  file : Stream
  lookups : List (FileProgram α)
  results : List (Run α)

namespace ReaderThread

/-- The next fseek or fread of the lookup, or its return. The reader that a
LookupWord makes begins with an fseek on a new duplicate, and so does the next
lookup on the old one: one stream stands for both. -/
def step (bufSize : Nat) (image : FileImage) (t : ReaderThread α) (offset : Nat) : Option (ReaderThread α × Nat) :=
  match t.lookups with
  | [] => none
  | .done a :: rest => some (⟨t.file, rest, t.results ++ [.ok a]⟩, offset)
  | .fail e :: _ => some (⟨t.file, [], t.results ++ [.error e]⟩, offset)
  | .call op next :: rest =>
      let (reply, s) := handle bufSize image op ⟨t.file, offset⟩
      some (⟨s.file, next reply :: rest, t.results⟩, s.offset)

/-- A failed Verify333 ends the process. -/
def exited (t : ReaderThread α) : Bool := t.results.any fun r => !r.isOk

/-- The next step has to go to the descriptor for what it reads. -/
def Refills (t : ReaderThread α) : Prop :=
  match t.lookups with
  | .call op _ :: _ => t.file.Refills op
  | _ => False

instance (t : ReaderThread α) : Decidable t.Refills := by
  unfold Refills
  split
  · infer_instance
  · exact isFalse id

end ReaderThread

inductive ThreadName
  | docs
  | words

structure Process (α β : Type) where
  docs : ReaderThread α
  words : ReaderThread β
  offset : Nat

namespace Process

def step (bufSize : Nat) (image : FileImage) (p : Process α β) (name : ThreadName) : Option (Process α β) :=
  if p.docs.exited || p.words.exited then none
  else match name with
    | .docs => (p.docs.step bufSize image p.offset).map fun (docs, offset) => ⟨docs, p.words, offset⟩
    | .words => (p.words.step bufSize image p.offset).map fun (words, offset) => ⟨p.docs, words, offset⟩

/-- If the thread goes to the descriptor, it finds the offset where its own
stream left it. -/
def Undisturbed (p : Process α β) : ThreadName → Prop
  | .docs => p.docs.Refills → p.offset = p.docs.file.offset
  | .words => p.words.Refills → p.offset = p.words.file.offset

instance (p : Process α β) (name : ThreadName) : Decidable (p.Undisturbed name) := by
  cases name with
  | docs => exact inferInstanceAs (Decidable (_ → _))
  | words => exact inferInstanceAs (Decidable (_ → _))

end Process

def DupReaders.start (readers : DupReaders) (docIds : List UInt64) (words : List Bytes) :
    Process (Option Bytes) (Option HashTableReader) where
  docs := ⟨readers.dtrFile, docIds.map (DocTableReader.lookupDocID readers.dtr), []⟩
  words := ⟨readers.itrFile, words.map (IndexTableReader.lookupWord readers.itr), []⟩
  offset := readers.offset

/-- Where the file is positioned before a lookup makes no difference to it. -/
structure Lookup (image : FileImage) (p : FileProgram α) : Prop where
  reads : Only Reads p
  rewinds : ∀ pos, outcome image pos p = outcome image 0 p

namespace ReaderThread

variable {t t' : ReaderThread α} {expected : List (Run α)} {offset offset' : Nat}

/-- What the thread has returned and will return, if nothing disturbs it. -/
inductive OnTrack (image : FileImage) (expected : List (Run α)) (t : ReaderThread α) : Prop
  | ended (hnone : t.lookups = []) (hbegins : t.results <+: expected)
  | running (p : FileProgram α) (rest : List (FileProgram α)) (pos : Nat) (hlookups : t.lookups = p :: rest)
      (hfile : t.file.Follows image pos) (hreads : Only Reads p) (hrest : ∀ q ∈ rest, Lookup image q)
      (hall : t.results ++ outcome image pos p :: rest.map (outcome image 0) = expected)

theorem onTrack_between {file : Stream} {lookups : List (FileProgram α)} {results : List (Run α)} {pos : Nat}
    (hfile : file.Follows image pos) (h : ∀ q ∈ lookups, Lookup image q)
    (hall : results ++ lookups.map (outcome image 0) = expected) : OnTrack image expected ⟨file, lookups, results⟩ := by
  cases lookups with
  | nil =>
      rw [List.map_nil, List.append_nil] at hall
      exact .ended rfl (hall ▸ List.prefix_refl _)
  | cons p rest =>
      have hp := h p List.mem_cons_self
      rw [List.map_cons, ← hp.rewinds pos] at hall
      exact .running p rest pos rfl hfile hp.reads (fun q hq => h q (List.mem_cons_of_mem p hq)) hall

theorem OnTrack.results (h : OnTrack image expected t) : t.results <+: expected := by
  cases h with
  | ended _ hbegins => exact hbegins
  | running p rest pos _ _ _ _ hall => exact hall ▸ List.prefix_append _ _

theorem OnTrack.step (hbuf : 0 < bufSize) (h : OnTrack image expected t) (hsame : t.Refills → offset = t.file.offset)
    (hstep : t.step bufSize image offset = some (t', offset')) : OnTrack image expected t' := by
  cases h with
  | ended hnone _ =>
      rw [ReaderThread.step, hnone] at hstep
      cases hstep
  | running p rest pos hlookups hfile hreads hrest hall =>
      rw [ReaderThread.step, hlookups] at hstep
      cases p with
      | done a =>
          obtain ⟨rfl, rfl⟩ := Prod.mk.inj (Option.some.inj hstep)
          apply onTrack_between hfile hrest
          rw [List.append_assoc]
          exact hall
      | fail e =>
          obtain ⟨rfl, rfl⟩ := Prod.mk.inj (Option.some.inj hstep)
          refine .ended rfl ?_
          rw [← hall]
          exact (List.prefix_append_right_inj _).mpr (List.prefix_append [_] _)
      | call op next =>
          obtain ⟨rfl, rfl⟩ := Prod.mk.inj (Option.some.inj hstep)
          rw [Refills, hlookups] at hsame
          cases hreads with
          | call hop hnext =>
              obtain ⟨pos', hhandle, hfollows⟩ := handle_simulates hbuf (s := ⟨t.file, offset⟩) hop
                hfile hsame true
              refine .running _ rest pos' rfl hfollows (hnext _) hrest ?_
              rw [outcome, Program.run, hhandle] at hall
              exact hall

end ReaderThread

namespace Process

variable {docResults : List (Run α)} {wordResults : List (Run β)}

structure OnTrack (image : FileImage) (docResults : List (Run α)) (wordResults : List (Run β)) (p : Process α β) :
    Prop where
  docs : p.docs.OnTrack image docResults
  words : p.words.OnTrack image wordResults

theorem OnTrack.step (hbuf : 0 < bufSize) {p p' : Process α β} {name : ThreadName}
    (h : OnTrack image docResults wordResults p) (hsame : p.Undisturbed name)
    (hstep : p.step bufSize image name = some p') : OnTrack image docResults wordResults p' := by
  unfold Process.step at hstep
  split at hstep
  · cases hstep
  · cases name with
    | docs =>
        obtain ⟨⟨docs, offset⟩, hthread, rfl⟩ := Option.map_eq_some_iff.mp hstep
        exact ⟨h.docs.step hbuf hsame hthread, h.words⟩
    | words =>
        obtain ⟨⟨words, offset⟩, hthread, rfl⟩ := Option.map_eq_some_iff.mp hstep
        exact ⟨h.docs, h.words.step hbuf hsame hthread⟩

end Process

theorem HashTableReader.outcome_lookupElementPositions (r : HashTableReader) (key : UInt64)
    (k : List Int → FileProgram α) (image : FileImage) (pos : Nat) :
    outcome image pos (r.lookupElementPositions key >>= k) = outcome image 0 (r.lookupElementPositions key >>= k) := by
  cases hnum : r.bucketNum key with
  | error e =>
      simp only [outcome, lookupElementPositions, hnum]
      rfl
  | ok n =>
      simp only [outcome, lookupElementPositions, hnum, run_bind, run_ofRun_ok, ok_bind]
      by_cases hneg : 0 ≤ int32 (r.offset + BucketListHeader.sizeof + BucketRecord.sizeof * n)
      · rw [run_fseekVerified hneg, run_fseekVerified hneg]
      · rw [run_fseekVerified_neg hneg, run_fseekVerified_neg hneg]

theorem DocTableReader.lookup_lookupDocID (image : FileImage) (r : HashTableReader) (docId : UInt64) :
    Lookup image (lookupDocID r docId) where
  reads := (only_lookupElementPositions r docId).bind fun ps => only_firstMatch (only_matchDocID docId) ps
  rewinds := outcome_lookupElementPositions r docId _ image

theorem IndexTableReader.lookup_lookupWord (image : FileImage) (r : HashTableReader) (word : Bytes) :
    Lookup image (lookupWord r word) where
  reads := (only_lookupElementPositions r _).bind fun ps => only_firstMatch (only_matchWord word) ps
  rewinds := outcome_lookupElementPositions r _ _ image

namespace FileIndexReader

end FileIndexReader

end SearchEngine

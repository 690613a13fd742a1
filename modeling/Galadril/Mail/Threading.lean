import Galadril.Mail.Store

namespace Galadril.Mail

open Lib Lib.Checked

/-- Text classes, name-based identifiers and digests of the language. -/
structure Engine extends Unicode where
  uuid5 : String → String
  sha256 : String → String

variable (env : Engine)

/-- Scans for identifiers in angle brackets: the text since the last opening
bracket is kept while it contains no space. -/
def scanIdentifiers : Option (List Char) → List Char → List String
  | _, [] => []
  | held, c :: rest =>
      if c = '<' then scanIdentifiers (some []) rest
      else if c = '>' then
        match held with
        | some (d :: inner) =>
            String.ofList ('<' :: (d :: inner).reverse ++ ['>']) :: scanIdentifiers none rest
        | _ => scanIdentifiers none rest
      else if env.isSpace c then scanIdentifiers none rest
      else scanIdentifiers (held.map (c :: ·)) rest

def findIdentifiers (text : String) : List String := scanIdentifiers env none text.toList

def validRoot (root : String) : Bool :=
  match root.toList with
  | '<' :: rest =>
      rest.getLast? = some '>' && 1 ≤ rest.dropLast.length && rest.dropLast.length ≤ 995 &&
        rest.dropLast.all fun c => c ≠ '<' && c ≠ '>' && !env.isSpace c && 32 ≤ c.toNat
  | _ => false

def threadKey (k : String × String) (messageId : String) : String :=
  env.uuid5 ("mail-thread/" ++ k.1 ++ "/" ++ k.2 ++ "/" ++ messageId)

structure ThreadBinding where
  threadReference : String
  threadNumber : Nat
  threadId : String

def ThreadBinding.of (summary : ThreadSummary) (number : Nat) : ThreadBinding :=
  ⟨summary.root ++ "/" ++ toString number, number, summary.root⟩

def decodeSummary (summary : ThreadSummary) : Except String ThreadSummary := do
  ensure summary.valid "validation error"
  return summary

def Account.nextNumber (a : Account) (rootKey : String) : Nat :=
  (a.threadEntries.rows.filter (·.rootKey = rootKey)).foldr (fun e n => max e.number n) 0 + 1

def Account.threadRoot (a : Account) (k : String × String) (root parent : String) : Except String String :=
  let root := if validRoot env root then root else "<" ++ threadKey env k root ++ "@galadril.local>"
  match (if parent = "" then none else a.threadEntries.find (threadKey env k parent)) with
  | some previous => (decodeSummary previous.summary).map ThreadSummary.root
  | none => .ok root

/-- The entry of a message identifier, made under the next number of its thread
unless it is there. -/
def Account.threadEntry (a : Account) (k : String × String) (kind : RecordKind) (messageId root subject date parent : String) :
    Except String (ThreadEntry × Account) :=
  let messageKey := threadKey env k messageId
  match a.threadEntries.find messageKey with
  | some row => do
      let summary ← decodeSummary row.summary
      let summary := if kind = .draft then { summary with subject } else summary
      return ({ row with summary }, { a with
        threadEntries := a.threadEntries.update (·.messageKey = messageKey) (fun e => { e with summary }) fun _ => rfl })
  | none => do
      let root ← a.threadRoot env k root parent
      let rootKey := threadKey env k root
      let summary ← decodeSummary ⟨root, messageId, parent, subject, date, "", "", ""⟩
      let row : ThreadEntry := ⟨messageKey, rootKey, a.nextNumber rootKey, summary, none, none⟩
      return (row, { a with threadEntries := a.threadEntries.insert row })

def Account.threadBinding (a : Account) (k : String × String) (recordId : String) (kind : RecordKind)
    (messageId root subject date parent : String) : Except String (ThreadBinding × Account) := do
  let (entry, a) ← a.threadEntry env k kind messageId root subject date parent
  let a := { a with
    threadRecords := a.threadRecords.insert ⟨kind, recordId, entry.messageKey⟩
    threadEntries := a.threadEntries.update (·.messageKey = entry.messageKey) (fun e => { e with
      messageRecord := if kind = .message then e.messageRecord.or (some recordId) else e.messageRecord
      draftRecord := if kind = .draft then e.draftRecord.or (some recordId) else e.draftRecord }) fun _ => rfl }
  return (.of entry.summary entry.number, a)

/-- Numbering a record writes the thread tables alone. -/
theorem threadBinding_frame {a b : Account} {k : String × String} {recordId messageId root subject date parent : String}
    {kind : RecordKind} {binding : ThreadBinding}
    (h : a.threadBinding env k recordId kind messageId root subject date parent = .ok (binding, b)) :
    ∃ entries records, b = { a with
      threadEntries := entries
      threadRecords := records } := by
  simp only [Account.threadBinding, bind_eq_ok, pure_eq_ok, Prod.mk.injEq] at h
  obtain ⟨⟨entry, c⟩, hentry, -, rfl⟩ := h
  have hframe : ∃ entries, c = { a with threadEntries := entries } := by
    simp only [Account.threadEntry] at hentry
    split at hentry
    · simp only [bind_eq_ok, pure_eq_ok, Prod.mk.injEq] at hentry
      obtain ⟨_, -, -, rfl⟩ := hentry
      exact ⟨_, rfl⟩
    · simp only [bind_eq_ok, pure_eq_ok, Prod.mk.injEq] at hentry
      obtain ⟨_, -, _, -, -, rfl⟩ := hentry
      exact ⟨_, rfl⟩
  obtain ⟨entries, rfl⟩ := hframe
  exact ⟨_, _, rfl⟩

def parentOf (m : MailMessage) : String :=
  ((findIdentifiers env (if m.inReplyTo = "" then m.references else m.inReplyTo)).getLast?).getD ""

def rootOf (m : MailMessage) : String := if m.threadId = "" then m.messageId else m.threadId

end Galadril.Mail

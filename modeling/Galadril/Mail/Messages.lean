import Galadril.Mail.Threading

namespace Galadril.Mail

open Lib Lib.Checked

variable (env : Engine)

def mail (row : MessageRow) : Except String MailMessage := do
  ensure row.content.valid "validation error"
  return { row.content with reference := if row.content.reference = "" then "GDR-" ++ row.id.toUpper else row.content.reference }

def message (s : MailStore) (actor : Principal) (identifier messageId : String) (right : Right) : Except String MailMessage := do
  let a ← account s actor identifier right
  let row ← context (a.messages.find messageId) "Message unavailable"
  mail row

def pending (s : MailStore) (actor : Principal) (identifier : String) : Except String (List (String × MailMessage)) := do
  let a ← account s actor identifier .use
  ((a.messages.rows.filter fun row => !row.processed).take 25).mapM fun row => do
    let m ← mail row
    return (row.id, m)

def process (m : MessageRow) : MessageRow := { m with processed := true }

theorem process_id (m : MessageRow) : (process m).id = m.id := rfl

def processed (s : MailStore) (actor : Principal) (identifier messageId : String) : Except String MailStore := do
  let a ← account s actor identifier .use
  return s.set (actor.tenant, identifier) { a with messages := a.messages.update (·.id = messageId) process process_id }

def Account.response (a : Account) (sourceId : String) : Option DraftRow :=
  a.drafts.rows.find? fun d => d.sourceId = some sourceId

def hasResponse (s : MailStore) (actor : Principal) (identifier sourceId : String) : Except String Bool := do
  let a ← account s actor identifier .use
  return (a.response sourceId).isSome

def cursor (s : MailStore) (actor : Principal) (identifier folder : String) : Except String (Option Nat × Nat) := do
  let a ← account s actor identifier .use
  return match a.cursors.find folder with
    | some row => (some row.validity, row.uid)
    | none => (none, 0)

def Cursor.move (validity uid : Nat) (c : Cursor) : Cursor :=
  { c with
    validity
    uid := if c.validity = validity then max c.uid uid else uid }

theorem move_folder (validity uid : Nat) (c : Cursor) : (c.move validity uid).folder = c.folder := rfl

def Account.advance (a : Account) (folder : String) (validity uid : Nat) : Account :=
  match a.cursors.find folder with
  | some _ => { a with cursors := a.cursors.update (·.folder = folder) (Cursor.move validity uid) (move_folder validity uid) }
  | none => { a with cursors := a.cursors.insert ⟨folder, validity, uid⟩ }

def advance (s : MailStore) (actor : Principal) (identifier folder : String) (validity uid : Nat) : Except String MailStore := do
  let a ← account s actor identifier .use
  return s.set (actor.tenant, identifier) (a.advance folder validity uid)

/-- The mark that a folder is first seen with: up to it mail is history, unless
the folder has been followed under this validity before. -/
def Account.historyBoundary (a : Account) (folder : String) (validity nextUid : Nat) : Nat × Account :=
  match a.historyBoundaries.find (folder, validity) with
  | some row => (row.uid, a)
  | none =>
      let cutoff := if (a.cursors.find folder).all fun c => c.validity ≠ validity then nextUid - 1 else 0
      (cutoff, { a with historyBoundaries := a.historyBoundaries.insert ⟨folder, validity, cutoff⟩ })

def historyBoundary (s : MailStore) (actor : Principal) (identifier folder : String) (validity nextUid : Nat) :
    Except String (Nat × MailStore) := do
  let a ← account s actor identifier .use
  let (cutoff, a) := a.historyBoundary folder validity nextUid
  return (cutoff, s.set (actor.tenant, identifier) a)

def ThreadBinding.bind (b : ThreadBinding) (m : MailMessage) : MailMessage :=
  { m with
    threadReference := b.threadReference
    threadNumber := b.threadNumber
    threadId := b.threadId }

def recordKey (k : String × String) (folder : String) (validity uid : Nat) : String :=
  env.uuid5 (k.1 ++ "/" ++ k.2 ++ "/" ++ folder ++ "/" ++ toString validity ++ "/" ++ toString uid)

def Account.messageReference (a : Account) (key : String) (m : MailMessage) : Except String String :=
  match (if m.reference = "" then none else
    a.drafts.rows.find? fun d => d.deliveryId = m.messageId && d.status = .sent) with
  | none => .ok ("GDR-" ++ key.toUpper)
  | some sent => do
      let original ← decodeDraft sent.content
      let expected := if original.reference = "" then "GDR-" ++ sent.id.toUpper else original.reference
      return if m.reference = expected then expected else "GDR-" ++ key.toUpper

def MessageRow.at (folder : String) (validity uid : Nat) (m : MessageRow) : Bool :=
  m.folder = folder && m.validity = validity && m.uid = uid

def Account.writeMessage (a : Account) (now : Int) (key folder : String) (validity uid : Nat) (historical : Bool)
    (content : MailMessage) : Except String Account :=
  if a.messages.rows.any (MessageRow.at folder validity uid) then
    .ok { a with messages := a.messages.update (MessageRow.at folder validity uid) (fun m => { m with content }) fun _ => rfl }
  else do
    ensure (a.messages.find key).isNone "UNIQUE constraint failed"
    return { a with messages := a.messages.insert ⟨key, folder, validity, uid, content, false, historical, historical, now⟩ }

def Account.bindMessage (a : Account) (k : String × String) (key : String) (m : MailMessage) :
    Except String (ThreadBinding × Account) :=
  a.threadBinding env k key .message m.messageId (rootOf m) m.subject m.date (parentOf env m)

def Account.recordMessage (a : Account) (k : String × String) (now : Int) (folder : String) (validity uid : Nat) (m : MailMessage) :
    Except String Account := do
  let key := recordKey env k folder validity uid
  let m ← (match a.messages.find key with
    | some previous => mail previous
    | none => .ok m)
  let reference ← a.messageReference key m
  let (binding, a) ← a.bindMessage env k key m
  let a ← a.writeMessage now key folder validity uid m.historical { binding.bind m with reference }
  return a.advance folder validity uid

def recordMessage (s : MailStore) (now : Int) (actor : Principal) (identifier folder : String) (validity uid : Nat)
    (m : MailMessage) :
    Except String (String × MailStore) := do
  let k := (actor.tenant, identifier)
  let a ← account s actor identifier .use
  let a ← a.recordMessage env k now folder validity uid m
  return (recordKey env k folder validity uid, s.set k a)

section Recorded

variable {env}

theorem advance_frame (a : Account) (folder : String) (validity uid : Nat) :
    ∃ cursors, a.advance folder validity uid = { a with cursors } := by
  unfold Account.advance
  split <;> exact ⟨_, rfl⟩

structure Account.Filed (env : Engine) (k : String × String) (a : Account) : Prop where
  placed : ∀ m ∈ a.messages.rows, m.id = recordKey env k m.folder m.validity m.uid
  marked : ∀ m ∈ a.messages.rows, m.content.historical = m.historical
  settled : ∀ m ∈ a.messages.rows, m.historical = true → m.processed = true

/-- What recording a message does to the messages of its account: it adds one, or
it rewrites the thread and the mark of the one at its place. -/
inductive Recorded (env : Engine) (k : String × String) (a b : Account) (folder : String) (validity uid : Nat) (m : MailMessage) :
    Prop where
  | added (row : MessageRow) (hnone : a.messages.find row.id = none) (hrows : b.messages.rows = a.messages.rows ++ [row])
      (hid : row.id = recordKey env k folder validity uid) (hplace : row.at folder validity uid = true)
      (hsender : row.content.sender = m.sender) (hcontent : row.content.historical = m.historical)
      (hhistorical : row.historical = m.historical) (hprocessed : row.processed = m.historical)
  | kept (old : MessageRow) (content : MailMessage) (hold : a.messages.find (recordKey env k folder validity uid) = some old)
      (hplace : old.at folder validity uid = true) (hsender : content.sender = old.content.sender)
      (hcontent : content.historical = old.content.historical)
      (hrows : b.messages.rows = a.messages.rows.map fun row => if row.id = old.id then { row with content } else row)

theorem mail_eq_ok {row : MessageRow} {m : MailMessage} (h : mail row = .ok m) :
    m.sender = row.content.sender ∧ m.historical = row.content.historical := by
  simp only [mail, bind_eq_ok, ensure_eq_ok, pure_eq_ok] at h
  obtain ⟨_, -, rfl⟩ := h
  exact ⟨rfl, rfl⟩

theorem MessageRow.at_eq_true {m : MessageRow} {folder : String} {validity uid : Nat} :
    m.at folder validity uid = true ↔ m.folder = folder ∧ m.validity = validity ∧ m.uid = uid := by
  simp [MessageRow.at, and_assoc]

theorem recordMessage_frame {a b : Account} {k : String × String} {now : Int} {folder : String} {validity uid : Nat}
    {m : MailMessage} (h : a.recordMessage env k now folder validity uid m = .ok b) :
    ∃ entries records messages, b = ({ a with
      threadEntries := entries
      threadRecords := records
      messages } : Account).advance folder validity uid := by
  simp only [Account.recordMessage, Account.bindMessage, bind_eq_ok, pure_eq_ok, Prod.exists] at h
  obtain ⟨m', -, reference, -, binding, c, hbinding, d, hwrite, rfl⟩ := h
  obtain ⟨entries, records, rfl⟩ := threadBinding_frame env hbinding
  simp only [Account.writeMessage] at hwrite
  split at hwrite
  · exact ⟨entries, records, _, by rw [← Except.ok.inj hwrite]⟩
  · simp only [bind_eq_ok, ensure_eq_ok, pure_eq_ok] at hwrite
    obtain ⟨_, -, rfl⟩ := hwrite
    exact ⟨entries, records, _, rfl⟩

theorem recordMessage_recorded {a b : Account} {k : String × String} {now : Int} {folder : String} {validity uid : Nat}
    {m : MailMessage} (ha : a.Filed env k) (h : a.recordMessage env k now folder validity uid m = .ok b) :
    Recorded env k a b folder validity uid m := by
  simp only [Account.recordMessage, Account.bindMessage, bind_eq_ok, pure_eq_ok, Prod.exists] at h
  obtain ⟨m', hm', reference, -, binding, c, hbinding, d, hwrite, rfl⟩ := h
  obtain ⟨entries, records, rfl⟩ := threadBinding_frame env hbinding
  obtain ⟨cursors, hcursors⟩ := advance_frame d folder validity uid
  rw [hcursors]
  simp only [Account.writeMessage] at hwrite
  split at hwrite
  · next hany =>
      obtain ⟨old, hold, hplace⟩ := List.any_eq_true.mp hany
      obtain ⟨hfolder, hvalidity, huid⟩ := MessageRow.at_eq_true.mp hplace
      have hkey : old.id = recordKey env k folder validity uid := by
        rw [ha.placed old hold, hfolder, hvalidity, huid]
      have hfind : a.messages.find (recordKey env k folder validity uid) = some old := Table.find_eq_some.mpr ⟨hold, hkey⟩
      simp only [hfind] at hm'
      obtain ⟨hsender, hhistorical⟩ := mail_eq_ok hm'
      obtain rfl := Except.ok.inj hwrite
      refine .kept old { binding.bind m' with reference } hfind hplace hsender hhistorical
        (List.map_congr_left fun row hrow => ?_)
      by_cases hid : row.id = old.id
      · obtain rfl : row = old := Table.eq_of_key hrow hold hid
        rw [if_pos hplace, if_pos rfl]
      · have hother : ¬ row.at folder validity uid = true := by
          intro hat
          obtain ⟨h1, h2, h3⟩ := MessageRow.at_eq_true.mp hat
          exact hid (by rw [ha.placed row hrow, h1, h2, h3, hkey])
        rw [if_neg hother, if_neg hid]
  · simp only [bind_eq_ok, ensure_eq_ok, pure_eq_ok, Option.isNone_iff_eq_none] at hwrite
    obtain ⟨_, hnone, rfl⟩ := hwrite
    simp only [hnone] at hm'
    obtain rfl := Except.ok.inj hm'
    exact .added _ hnone (Table.insert_rows hnone) rfl (MessageRow.at_eq_true.mpr ⟨rfl, rfl, rfl⟩) rfl rfl rfl rfl

theorem Account.Filed.record {a b : Account} {k : String × String} {folder : String} {validity uid : Nat} {m : MailMessage}
    (ha : a.Filed env k) (h : Recorded env k a b folder validity uid m) : b.Filed env k := by
  cases h with
  | added row hnone hrows hid hplace hsender hcontent hhistorical hprocessed =>
      obtain ⟨hfolder, hvalidity, huid⟩ := MessageRow.at_eq_true.mp hplace
      have hmem : ∀ {x}, x ∈ b.messages.rows → x ∈ a.messages.rows ∨ x = row := by
        intro x hx
        rw [hrows] at hx
        exact (List.mem_append.mp hx).imp_right List.mem_singleton.mp
      refine ⟨fun x hx => ?_, fun x hx => ?_, fun x hx => ?_⟩
      · rcases hmem hx with hx | rfl
        · exact ha.placed x hx
        · rw [hid, hfolder, hvalidity, huid]
      · rcases hmem hx with hx | rfl
        · exact ha.marked x hx
        · rw [hcontent, hhistorical]
      · rcases hmem hx with hx | rfl
        · exact ha.settled x hx
        · rw [hhistorical, hprocessed]
          exact id
  | kept old content hold hplace hsender hcontent hrows =>
      have hmem : ∀ {x}, x ∈ b.messages.rows → ∃ y ∈ a.messages.rows,
          x = if y.id = old.id then { y with content } else y := by
        intro x hx
        rw [hrows] at hx
        obtain ⟨y, hy, rfl⟩ := List.mem_map.mp hx
        exact ⟨y, hy, rfl⟩
      refine ⟨fun x hx => ?_, fun x hx => ?_, fun x hx => ?_⟩
      · obtain ⟨y, hy, rfl⟩ := hmem hx
        split <;> exact ha.placed y hy
      · obtain ⟨y, hy, rfl⟩ := hmem hx
        split
        · next hid =>
            obtain rfl := Table.eq_of_key hy (Table.find_eq_some.mp hold).1 hid
            rw [hcontent]
            exact ha.marked y hy
        · exact ha.marked y hy
      · obtain ⟨y, hy, rfl⟩ := hmem hx
        split <;> exact ha.settled y hy

theorem Account.Filed.process {a : Account} {k : String × String} (ha : a.Filed env k) (messageId : String) :
    ({ a with messages := a.messages.update (·.id = messageId) process process_id } : Account).Filed env k := by
  have hmem : ∀ {x}, x ∈ (a.messages.update (·.id = messageId) Mail.process process_id).rows → ∃ y ∈ a.messages.rows,
      x = if y.id = messageId then Mail.process y else y := by
    intro x hx
    obtain ⟨y, hy, rfl⟩ := List.mem_map.mp hx
    exact ⟨y, hy, by simp⟩
  refine ⟨fun x hx => ?_, fun x hx => ?_, fun x hx => ?_⟩
  · obtain ⟨y, hy, rfl⟩ := hmem hx
    split <;> exact ha.placed y hy
  · obtain ⟨y, hy, rfl⟩ := hmem hx
    split <;> exact ha.marked y hy
  · obtain ⟨y, hy, rfl⟩ := hmem hx
    split
    · exact fun _ => rfl
    · exact ha.settled y hy

end Recorded

end Galadril.Mail

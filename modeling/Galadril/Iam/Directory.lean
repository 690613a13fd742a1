import Galadril.Iam.Roles
import Galadril.Lib.Pages
import Galadril.Lib.Text
import Galadril.Registry.Identity

namespace Galadril.Iam

open Lib.Checked Lib.Pages Lib.Text

structure IamUser where
  userId : String
  displayName : Option String
  email : Option String
  isActive : Bool
  createdAtMs : Int
  updatedAtMs : Int
deriving DecidableEq

/-- The users of a tenant in the order of their ids, with what the store and
the authorization service answer about them. -/
structure Directory where
  users : List IamUser
  sorted : users.Pairwise fun a b => a.userId < b.userId
  /-- Whether the query of an actor matches a user. -/
  listed : String → Bool → String → IamUser → Bool
  active : String → Bool
  manages : String → Bool
  views : String → Bool

variable (d : Directory)

def searchUsersPage (user : String) (administrator : Bool) (search : String) (limit : Nat) (after : Option String) :
    List IamUser :=
  (d.users.filter fun u => d.listed user administrator search u && after.all (· < u.userId)).take (max 1 (min limit 101))

def validateSearch (search : String) : Except String Unit :=
  ensure (search.utf8ByteSize ≤ 128 && !search.toList.any isControl) "Search must contain at most 128 characters"

def directoryAdministrator (user : String) : Except String Bool := do
  ensure (d.active user) "User is unavailable"
  ensure (d.manages user || d.views user) "Authorization denied"
  return d.manages user

def visibleTo (caller : String) (administrator : Bool) (u : IamUser) : Bool :=
  administrator || u.userId == caller || !d.manages u.userId

def filterDirectoryAdministrators (caller : String) (administrator : Bool) (users : List IamUser) : List IamUser :=
  users.filter (visibleTo d caller administrator)

/-- Fetches until the page and one more user are there. The first argument
bounds the number of fetches. -/
def refill (user : String) (administrator : Bool) (search : String) (limit : Nat) :
    Nat → List IamUser → Option String → Except String (List IamUser)
  | 0, items, _ => .ok items
  | fuel + 1, items, cursor =>
      if items.length ≤ limit then
        let requested := limit + 1 - items.length
        let batch := searchUsersPage d user administrator search requested cursor
        match batch.getLast? with
        | none => .ok items
        | some last => do
            ensure (cursor.all (· < last.userId)) "Invalid directory cursor"
            let items := items ++ filterDirectoryAdministrators d user administrator batch
            if batch.length < requested then .ok items
            else refill user administrator search limit fuel items (some last.userId)
      else .ok items

def trimmed (search : String) : String := String.ofList (trimBy Registry.Identity.isWhitespace search.toList)

def usersPage (user search : String) (limit : Nat) (after : Option String) : Except String (Page IamUser String) := do
  validateSearch search
  ensure (after.all validIdentifier) "Invalid local identifier"
  let administrator ← directoryAdministrator d user
  let limit := max 1 (min limit 100)
  let items ← refill d user administrator (trimmed search) limit (d.users.length + 1) [] after
  return ⟨items.take limit, if limit < items.length then items[limit - 1]?.map IamUser.userId else none⟩

section Fetching

variable {d : Directory} {user search : String} {administrator : Bool}

def rowsAfter (d : Directory) (user : String) (administrator : Bool) (search : String) (cursor : Option String) : List IamUser :=
  d.users.filter fun u => d.listed user administrator search u && cursor.all (· < u.userId)

theorem rowsAfter_sorted (cursor : Option String) :
    (rowsAfter d user administrator search cursor).Pairwise fun a b => a.userId < b.userId := d.sorted.filter _

theorem filter_lt {rows before rest : List IamUser} {u : IamUser} (hsorted : rows.Pairwise fun a b => a.userId < b.userId)
    (hrows : rows = before ++ u :: rest) : rows.filter (fun v => decide (u.userId < v.userId)) = rest := by
  rw [hrows, List.pairwise_append, List.pairwise_cons] at hsorted
  obtain ⟨-, ⟨hrest, -⟩, hbefore⟩ := hsorted
  have hnone : before.filter (fun v => decide (u.userId < v.userId)) = [] := by
    exact List.filter_eq_nil_iff.mpr fun v hv hlt => lt_asymm (of_decide_eq_true hlt) (hbefore v hv u List.mem_cons_self)
  have hall : rest.filter (fun v => decide (u.userId < v.userId)) = rest :=
    List.filter_eq_self.mpr fun v hv => by simpa using hrest v hv
  rw [hrows, List.filter_append, hnone, List.filter_cons, if_neg (by simp), hall, List.nil_append]

theorem rowsAfter_cursor {cursor : Option String} {before rest : List IamUser} {u : IamUser}
    (h : rowsAfter d user administrator search cursor = before ++ u :: rest) :
    rowsAfter d user administrator search (some u.userId) = rest := by
  have hlater := filter_lt (rowsAfter_sorted cursor) h
  have hmem : u ∈ rowsAfter d user administrator search cursor := h ▸ List.mem_append_right _ List.mem_cons_self
  have hu : cursor.all (· < u.userId) = true := by
    have := (List.mem_filter.mp hmem).2
    simp only [Bool.and_eq_true] at this
    exact this.2
  rw [← hlater, rowsAfter, rowsAfter, List.filter_filter]
  refine List.filter_congr fun v _ => ?_
  cases cursor with
  | none => simp [Bool.and_comm]
  | some c =>
      simp only [Option.all_some, decide_eq_true_eq] at hu ⊢
      by_cases hv : u.userId < v.userId
      · simp [hv, hu.trans hv]
      · simp [hv]

/-- The fetches yield the visible rows in order, one more than the page at
most. -/
theorem refill_eq {limit : Nat} (hlimit : limit ≤ 100) (fuel : Nat) (items : List IamUser) (cursor : Option String)
    (hfuel : (rowsAfter d user administrator search cursor).length < fuel) (hitems : items.length ≤ limit + 1) :
    refill d user administrator search limit fuel items cursor =
      .ok ((items ++ (rowsAfter d user administrator search cursor).filter (visibleTo d user administrator)).take (limit + 1)) := by
  induction fuel generalizing items cursor with
  | zero => omega
  | succ fuel ih =>
      rw [refill]
      split
      · next hle =>
          generalize hr : limit + 1 - items.length = requested
          have hbatch : searchUsersPage d user administrator search requested cursor =
              (rowsAfter d user administrator search cursor).take requested := by
            have hclamp : max 1 (min requested 101) = requested := by omega
            rw [searchUsersPage, hclamp]
            rfl
          simp only [hbatch]
          generalize hrows : rowsAfter d user administrator search cursor = rows at hfuel ⊢
          cases hlast : (rows.take requested).getLast? with
          | none =>
              have hnil : rows = [] := by
                have htake := List.getLast?_eq_none_iff.mp hlast
                rw [List.take_eq_nil_iff] at htake
                exact htake.resolve_left (by omega)
              simp [hnil, List.take_of_length_le hitems]
          | some last =>
              obtain ⟨before, htake⟩ := List.getLast?_eq_some_iff.mp hlast
              have hsplit : rows = before ++ last :: rows.drop requested := by
                conv => lhs; rw [← List.take_append_drop requested rows, htake]
                simp
              have hmem : last ∈ rowsAfter d user administrator search cursor := by
                rw [hrows, hsplit]
                exact List.mem_append_right _ List.mem_cons_self
              have hcursor : cursor.all (· < last.userId) = true := by
                have := (List.mem_filter.mp hmem).2
                simp only [Bool.and_eq_true] at this
                exact this.2
              have hlength : (filterDirectoryAdministrators d user administrator (rows.take requested)).length ≤ requested :=
                (List.length_filter_le _ _).trans (List.length_take_le _ _)
              have hnext : (items ++ filterDirectoryAdministrators d user administrator
                (rows.take requested)).length ≤ limit + 1 := by
                rw [List.length_append]
                omega
              simp only [hcursor, ensure_true, ok_bind]
              split
              · next hshort =>
                  have hall : rows.take requested = rows := by
                    refine List.take_of_length_le ?_
                    rw [List.length_take] at hshort
                    omega
                  rw [hall] at hnext ⊢
                  rw [filterDirectoryAdministrators] at hnext ⊢
                  rw [List.take_of_length_le hnext]
              · next hfull =>
                  have hrest := rowsAfter_cursor (hrows.trans hsplit)
                  have hshorter : (rows.drop requested).length < fuel := by
                    rw [List.length_drop]
                    have : 0 < rows.length := by rw [hsplit]; simp
                    omega
                  rw [ih _ _ (hrest ▸ hshorter) hnext, hrest, filterDirectoryAdministrators, List.append_assoc,
                    ← List.filter_append,
                    List.take_append_drop]
      · next hgt =>
          have hfull : limit + 1 = items.length := by omega
          rw [hfull, List.take_left]

end Fetching

section Walking

variable {d : Directory} {user search : String}

def shown (d : Directory) (user search : String) (cursor : Option String) : List IamUser :=
  (rowsAfter d user (d.manages user) (trimmed search) cursor).filter (visibleTo d user (d.manages user))

def clamped (limit : Nat) : Nat := max 1 (min limit 100)

theorem clamped_pos (limit : Nat) : 0 < clamped limit := by
  rw [clamped]
  omega

theorem usersPage_eq (hsearch : validateSearch search = .ok ()) (hactive : d.active user = true)
    (hviews : (d.manages user || d.views user) = true) (limit : Nat) {cursor : Option String}
    (hcursor : cursor.all validIdentifier = true) :
    usersPage d user search limit cursor = .ok ⟨(shown d user search cursor).take (clamped limit),
      if clamped limit < (shown d user search cursor).length then
        (shown d user search cursor)[clamped limit - 1]?.map IamUser.userId
      else none⟩ := by
  have hfuel : (rowsAfter d user (d.manages user) (trimmed search) cursor).length < d.users.length + 1 :=
    Nat.lt_succ_of_le (List.length_filter_le _ _)
  have hclamp : clamped limit ≤ 100 := by
    rw [clamped]
    omega
  have hpos := clamped_pos limit
  have hrefill := refill_eq hclamp _ [] cursor hfuel (Nat.zero_le _)
  rw [clamped] at hrefill hpos ⊢
  simp only [usersPage, hsearch, hcursor, directoryAdministrator, hactive, hviews, ensure_true, ok_bind, pure_bind, hrefill,
    List.nil_append]
  rw [shown]
  generalize (rowsAfter d user (d.manages user) (trimmed search) cursor).filter (visibleTo d user (d.manages user)) = rows
  generalize max 1 (min limit 100) = limit at hpos ⊢
  have hlength : limit < (rows.take (limit + 1)).length ↔ limit < rows.length := by
    rw [List.length_take]
    omega
  rw [List.take_take, Nat.min_eq_left (Nat.le_succ limit), List.getElem?_take_of_lt (by omega)]
  simp only [hlength]
  rfl

/-- After a page, the cursor stands for the users behind it. -/
theorem shown_cursor {cursor : Option String} {n : Nat} {u : IamUser} (hu : (shown d user search cursor)[n]? = some u) :
    shown d user search (some u.userId) = (shown d user search cursor).drop (n + 1) := by
  obtain ⟨hn, rfl⟩ := List.getElem?_eq_some_iff.mp hu
  have hmem : (shown d user search cursor)[n] ∈ rowsAfter d user (d.manages user) (trimmed search) cursor :=
    (List.mem_filter.mp (List.getElem_mem hn)).1
  obtain ⟨before, rest, hsplit⟩ := List.append_of_mem hmem
  have hsorted : (shown d user search cursor).Pairwise fun a b => a.userId < b.userId := (rowsAfter_sorted cursor).filter _
  have hdrop : (shown d user search cursor) = (shown d user search cursor).take n ++
      (shown d user search cursor)[n] :: (shown d user search cursor).drop (n + 1) := by
    rw [← List.drop_eq_getElem_cons hn, List.take_append_drop]
  have hlater := filter_lt hsorted hdrop
  rw [shown, rowsAfter_cursor hsplit, ← filter_lt (rowsAfter_sorted cursor) hsplit, List.filter_filter, ← hlater]
  exact (List.filter_congr fun v _ => Bool.and_comm _ _).trans (List.filter_filter).symm

def position (limits : Nat → Nat) (n : Nat) : Nat := ∑ k ∈ Finset.range n, clamped (limits k)

theorem position_succ (limits : Nat → Nat) (n : Nat) : position limits (n + 1) = position limits n + clamped (limits n) :=
  Finset.sum_range_succ _ _

theorem position_mono (limits : Nat → Nat) {m n : Nat} (h : m ≤ n) : position limits m ≤ position limits n :=
  Finset.sum_le_sum_of_subset (Finset.range_subset_range.mpr h)

theorem usersPage_rejects (hsearch : validateSearch search = .ok ()) (limit : Nat) {cursor : String}
    (hcursor : validIdentifier cursor = false) :
    usersPage d user search limit (some cursor) = .error "Invalid local identifier" := by
  simp only [usersPage, hsearch, ok_bind, Option.all_some, hcursor]
  rfl

/-- A call whose cursor leaves no more than its page ends the walk. -/
theorem users_last (hsearch : validateSearch search = .ok ()) (hactive : d.active user = true)
    (hviews : (d.manages user || d.views user) = true) (limits : Nat → Nat) {cursor : Option String}
    (hcursor : cursor.all validIdentifier = true) (k : Nat)
    (hlast : (shown d user search cursor).length ≤ clamped (limits k)) :
    Yields (fun k => usersPage d user search (limits k)) k cursor (shown d user search cursor) := by
  have hcall := usersPage_eq hsearch hactive hviews (limits k) hcursor
  rw [if_neg (Nat.not_lt_of_le hlast), List.take_of_length_le hlast] at hcall
  exact @yields_last _ _ _ (fun k => usersPage d user search (limits k)) k cursor _ hcall rfl

/-- Another call leaves the rest to the calls behind its last user. -/
theorem users_next (hsearch : validateSearch search = .ok ()) (hactive : d.active user = true)
    (hviews : (d.manages user || d.views user) = true) (limits : Nat → Nat) {cursor : Option String}
    (hcursor : cursor.all validIdentifier = true) (k : Nat)
    (hmore : clamped (limits k) < (shown d user search cursor).length) {u : IamUser}
    (hu : (shown d user search cursor)[clamped (limits k) - 1]? = some u) :
    Yields (fun k => usersPage d user search (limits k)) k cursor (shown d user search cursor) ↔
      Yields (fun k => usersPage d user search (limits k)) (k + 1) (some u.userId) (shown d user search (some u.userId)) := by
  have hcall := usersPage_eq hsearch hactive hviews (limits k) hcursor
  rw [if_pos hmore, hu, Option.map_some] at hcall
  have hpos : 0 < clamped (limits k) := clamped_pos _
  have hrest := shown_cursor hu
  rw [Nat.sub_add_cancel hpos] at hrest
  rw [hrest]
  conv => lhs; rw [← List.take_append_drop (clamped (limits k)) (shown d user search cursor)]
  exact @yields_next _ _ _ (fun k => usersPage d user search (limits k)) k cursor _ _ hcall rfl _

/-- The walk from a call whose cursor stands for what is left. -/
theorem users_walk_from (hsearch : validateSearch search = .ok ()) (hactive : d.active user = true)
    (hviews : (d.manages user || d.views user) = true) (limits : Nat → Nat) {cursor : Option String}
    (hcursor : cursor.all validIdentifier = true) (k : Nat)
    (hshown : shown d user search cursor = (shown d user search none).drop (position limits k)) :
    Yields (fun k => usersPage d user search (limits k)) k cursor (shown d user search cursor) ↔
      ∀ n u, k ≤ n → position limits (n + 1) < (shown d user search none).length →
        (shown d user search none)[position limits (n + 1) - 1]? = some u → validIdentifier u.userId = true := by
  induction hlength : (shown d user search cursor).length using Nat.strong_induction_on generalizing cursor k with
  | _ length ih =>
      have hpos : 0 < clamped (limits k) := clamped_pos _
      have hsize : (shown d user search cursor).length = (shown d user search none).length - position limits k := by
        rw [hshown, List.length_drop]
      have hsucc : position limits (k + 1) = position limits k + clamped (limits k) := position_succ limits k
      by_cases hlast : (shown d user search cursor).length ≤ clamped (limits k)
      · refine iff_of_true (users_last hsearch hactive hviews limits hcursor k hlast) fun n u hn hinner => ?_
        have hmono : position limits (k + 1) ≤ position limits (n + 1) := position_mono limits (Nat.succ_le_succ hn)
        omega
      · have hmore : clamped (limits k) < (shown d user search cursor).length := Nat.lt_of_not_le hlast
        obtain ⟨u, hu⟩ : ∃ u, (shown d user search cursor)[clamped (limits k) - 1]? = some u :=
          ⟨_, List.getElem?_eq_getElem (by omega)⟩
        have hu' : (shown d user search none)[position limits (k + 1) - 1]? = some u := by
          rw [hsucc, ← hu, hshown, List.getElem?_drop]
          congr 1
          omega
        rw [users_next hsearch hactive hviews limits hcursor k hmore hu]
        cases hvalid : validIdentifier u.userId with
        | true =>
            have hrest := shown_cursor hu
            rw [Nat.sub_add_cancel hpos] at hrest
            have hshorter : (shown d user search (some u.userId)).length < length := by
              rw [hrest, List.length_drop]
              omega
            have hafter : shown d user search (some u.userId) = (shown d user search none).drop (position limits (k + 1)) := by
              rw [hrest, hshown, List.drop_drop, hsucc]
            rw [ih _ hshorter (by simpa using hvalid) (k + 1) hafter rfl]
            refine ⟨fun h n v hn => ?_, fun h n v hn => h n v (by omega)⟩
            rcases Nat.eq_or_lt_of_le hn with rfl | hn
            · intro _ hv
              rw [hu'] at hv
              cases hv
              exact hvalid
            · exact h n v hn
        | false =>
            have hcall : usersPage d user search (limits (k + 1)) (some u.userId) = _ := usersPage_rejects hsearch _ hvalid
            have hnot := @not_yields_of_error _ _ _ (fun k => usersPage d user search (limits k)) (k + 1) _ _ hcall
            refine iff_of_false (hnot _) fun h => ?_
            have hinner : position limits (k + 1) < (shown d user search none).length := by omega
            simp [h k u le_rfl hinner hu'] at hvalid

/-- A walk is exact exactly when every user at the end of a page that has a
successor carries a local identifier. -/
theorem users_walk_exact (d : Directory) (user search : String) (hsearch : validateSearch search = .ok ())
    (hactive : d.active user = true) (hviews : (d.manages user || d.views user) = true) (limits : Nat → Nat) :
    Yields (fun k => usersPage d user search (limits k)) 0 none (shown d user search none) ↔
      ∀ n u, position limits (n + 1) < (shown d user search none).length →
        (shown d user search none)[position limits (n + 1) - 1]? = some u → validIdentifier u.userId = true := by
  rw [users_walk_from hsearch hactive hviews limits rfl 0 (by simp [position])]
  exact ⟨fun h n u => h n u (Nat.zero_le n), fun h n u _ => h n u⟩

end Walking

def imported : Directory where
  users := [⟨"auth0|ada", none, none, true, 0, 0⟩, ⟨"bob", none, none, true, 0, 0⟩]
  sorted := List.pairwise_pair.mpr (String.lt_iff_toList_lt.mpr (by decide))
  listed := fun _ _ _ _ => true
  active := fun _ => true
  manages := fun user => user == "root"
  views := fun _ => true

theorem users_walk_stops : ¬ ∀ (d : Directory) (user search : String), validateSearch search = .ok () → d.active user = true →
    (d.manages user || d.views user) = true → ∀ limits : Nat → Nat,
      Yields (fun k => usersPage d user search (limits k)) 0 none (shown d user search none) := by
  intro h
  have hwalk := h imported "root" "" (by decide) rfl rfl fun _ => 1
  have hnext := @users_next imported "root" "" (by decide) rfl rfl (fun _ => 1) none rfl 0 (by decide)
    ⟨"auth0|ada", none, none, true, 0, 0⟩ (by decide)
  have hcall := @usersPage_rejects imported "root" "" (by decide) 1 "auth0|ada" (by decide)
  exact @not_yields_of_error _ _ _ (fun k => usersPage imported "root" "" 1) 1 _ _ hcall _ (hnext.mp hwalk)

theorem users_walk_exact_imported : validateSearch "" = .ok () ∧ imported.active "root" = true ∧
    (imported.manages "root" || imported.views "root") = true ∧
      (Yields (fun _ => usersPage imported "root" "" 2) 0 none (shown imported "root" "" none) ↔
        ∀ n u, position (fun _ => 2) (n + 1) < (shown imported "root" "" none).length →
          (shown imported "root" "" none)[position (fun _ => 2) (n + 1) - 1]? = some u → validIdentifier u.userId = true) :=
  ⟨by decide, rfl, rfl, users_walk_exact imported "root" "" (by decide) rfl rfl fun _ => 2⟩

end Galadril.Iam

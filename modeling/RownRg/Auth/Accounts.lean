import Mathlib.Data.List.Nodup
import RownRg.Lib.Fallible
import RownRg.Lib.Text

/-! Accounts and their roles: who may make, change, deactivate and delete which account. -/

open PyText Fallible

namespace RownRg.Accounts

inductive Role where
  | superAdmin | admin | worker | viewer
  deriving DecidableEq

/-- `ROLE_LEVEL` -/
def Role.level : Role → Nat
  | .viewer => 0
  | .worker => 1
  | .admin => 2
  | .superAdmin => 3

/-- `ADMINS` -/
def admins : List Role := [.superAdmin, .admin]

structure User where
  id : Nat
  email : Text
  username : Option Text
  name : Text
  role : Role
  isActive : Bool
  deriving DecidableEq

structure UserCreate where
  email : Text
  username : Option Text
  name : Text
  role : Role
  password : Text

/-- The fields of an update: not set, set to null, or set to a value. -/
structure UserUpdate where
  name : Option (Option Text)
  role : Option (Option Role)
  isActive : Option (Option Bool)

/-- The codes of the errors; `integrityError` is the refusal of the table itself. -/
inductive Refusal where
  | userNotFound | inactiveUser | forbidden | cannotChangeOwnRole | cannotDeactivateSelf
  | superAdminExists | cannotDeleteSelf | deactivateFirst | lastSuperAdmin | userHasProjects
  | passwordPolicy | emailDuplicate | integrityError
  deriving DecidableEq

def getUser (users : List User) (userId : Nat) : Except Refusal User :=
  match users.find? fun u => u.id == userId with
  | some user => .ok user
  | none => .error .userNotFound

def getCurrentActiveUser (users : List User) (actor : Nat) : Except Refusal User := do
  let current ← getUser users actor
  require current.isActive .inactiveUser
  return current

def requireRole (roles : List Role) (current : User) : Except Refusal Unit :=
  require (roles.contains current.role) .forbidden

def assertCanAssignRole (actor : User) (role : Role) : Except Refusal Unit :=
  require (role.level ≤ actor.role.level) .forbidden

def assertCanManageUser (actor target : User) : Except Refusal Unit :=
  require (target.role.level ≤ actor.role.level) .forbidden

/-- Whether an account other than the given one is a super admin. -/
def otherSuperAdmin (users : List User) (userId : Nat) : Bool :=
  users.any fun u => u.role == .superAdmin && u.id != userId

/-- The new row; the keys of the table are unique. -/
def insertUser (users : List User) (user : User) (e : Refusal) : Except Refusal (List User) := do
  require (!users.any fun u => u.id == user.id || u.email == user.email ||
    (user.username.isSome && u.username == user.username)) e
  return users ++ [user]

def register (passwordPolicy : Text → Bool) (users : List User) (current : User) (data : UserCreate)
    (id : Nat) : Except Refusal (List User) := do
  assertCanAssignRole current data.role
  require (data.role != .superAdmin || !users.any fun u => u.role == .superAdmin) .superAdminExists
  require (passwordPolicy data.password) .passwordPolicy
  insertUser users ⟨id, data.email, data.username, data.name, data.role, true⟩ .emailDuplicate

def UserUpdate.hasNull (data : UserUpdate) : Bool :=
  data.name == some none || data.role == some none || data.isActive == some none

def UserUpdate.apply (data : UserUpdate) (user : User) : User :=
  { user with
    name := data.name.join.getD user.name
    role := data.role.join.getD user.role
    isActive := data.isActive.join.getD user.isActive }

/-- What a new role is checked for. -/
def checkRole (users : List User) (current user : User) : Option Role → Except Refusal Unit
  | none => .ok ()
  | some role => do
    assertCanAssignRole current role
    require (role != .superAdmin || user.role == .superAdmin || !otherSuperAdmin users user.id)
      .superAdminExists

def updateUser (users : List User) (current : User) (userId : Nat) (data : UserUpdate) :
    Except Refusal (List User) := do
  let user ← getUser users userId
  require (user.id != current.id || data.role.join.all (· == user.role)) .cannotChangeOwnRole
  require (user.id != current.id || data.isActive.join != some false) .cannotDeactivateSelf
  assertCanManageUser current user
  checkRole users current user data.role.join
  require (!data.hasNull) .integrityError
  return users.map fun u => if u.id = userId then data.apply u else u

def softDeleteUser (users : List User) (userId : Nat) : Except Refusal (List User) := do
  let _ ← getUser users userId
  return users.map fun u => if u.id = userId then { u with isActive := false } else u

def deleteUserPermanently (users : List User) (current : User) (userId nProjects : Nat) :
    Except Refusal (List User) := do
  let user ← getUser users userId
  require (user.id != current.id) .cannotDeleteSelf
  require (!user.isActive) .deactivateFirst
  require (user.role != .superAdmin || otherSuperAdmin users user.id) .lastSuperAdmin
  require (nProjects == 0) .userHasProjects
  return users.filter fun u => u.id != userId

/-- The first login of a person through the single sign-on makes an account. -/
def samlAcs (users : List User) (email : Text) (id : Nat) : Except Refusal (List User) :=
  match users.find? fun u => u.email == email with
  | some user => do
    require user.isActive .inactiveUser
    return users
  | none =>
    insertUser users ⟨id, email, none, email.takeWhile (· != '@'), .viewer, true⟩ .integrityError

/-- A request; new rows get the id that comes with it. -/
inductive Request where
  | register (actor : Nat) (data : UserCreate) (id : Nat)
  | update (actor userId : Nat) (data : UserUpdate)
  | softDelete (actor userId : Nat)
  | deletePermanently (actor userId nProjects : Nat)
  | saml (email : Text) (id : Nat)

def serve (passwordPolicy : Text → Bool) (users : List User) : Request → Except Refusal (List User)
  | .register actor data id => do
    let current ← getCurrentActiveUser users actor
    requireRole admins current
    register passwordPolicy users current data id
  | .update actor userId data => do
    let current ← getCurrentActiveUser users actor
    requireRole admins current
    updateUser users current userId data
  | .softDelete actor userId => do
    let current ← getCurrentActiveUser users actor
    requireRole [.superAdmin] current
    softDeleteUser users userId
  | .deletePermanently actor userId nProjects => do
    let current ← getCurrentActiveUser users actor
    requireRole [.superAdmin] current
    deleteUserPermanently users current userId nProjects
  | .saml email id => samlAcs users email id

/-- A request that is refused is rolled back. -/
def handle (passwordPolicy : Text → Bool) (users : List User) (r : Request) : List User :=
  match serve passwordPolicy users r with
  | .ok users' => users'
  | .error _ => users

/-- One account is the super admin, and no other. -/
structure Sole (users : List User) (a : Nat) : Prop where
  distinct : (users.map User.id).Nodup
  holds : ∃ u ∈ users, u.id = a ∧ u.role = .superAdmin
  only : ∀ u ∈ users, u.role = .superAdmin → u.id = a

def ActiveAt (users : List User) (a : Nat) : Prop := ∃ u ∈ users, u.id = a ∧ u.isActive

variable {passwordPolicy : Text → Bool} {users users' : List User} {a i actor userId : Nat}
  {u v user current : User} {f : User → User} {e : Refusal} {data : UserUpdate} {r : Request}

theorem getUser_ok (h : getUser users i = .ok user) : user ∈ users ∧ user.id = i := by
  unfold getUser at h
  split at h
  · rename_i found hfound
    cases h
    exact ⟨List.mem_of_find?_eq_some hfound, by simpa using List.find?_some hfound⟩
  · cases h

theorem getCurrentActiveUser_ok (h : getCurrentActiveUser users i = .ok user) :
    user ∈ users ∧ user.id = i ∧ user.isActive := by
  unfold getCurrentActiveUser at h
  obtain ⟨v, hv, h⟩ := bind_eq_ok.1 h
  obtain ⟨_, hactive, h⟩ := bind_eq_ok.1 h
  cases h
  obtain ⟨hmem, hid⟩ := getUser_ok hv
  exact ⟨hmem, hid, require_eq_ok.1 hactive⟩

theorem Sole.eq_of_id (h : Sole users a) (hu : u ∈ users) (hv : v ∈ users) (hid : u.id = v.id) :
    u = v :=
  List.inj_on_of_nodup_map h.distinct hu hv hid

theorem Sole.role_of_id (h : Sole users a) (hu : u ∈ users) (hid : u.id = a) :
    u.role = .superAdmin := by
  obtain ⟨v, hv, hva, hrole⟩ := h.holds
  rw [h.eq_of_id hu hv (hid.trans hva.symm)]
  exact hrole

theorem superAdmin_of_level {role : Role} (h : Role.superAdmin.level ≤ role.level) :
    role = .superAdmin := by
  cases role <;> simp [Role.level] at h ⊢

/-- A change of accounts that keeps ids and who is super admin. -/
theorem Sole.map (h : Sole users a) (hid : ∀ u, (f u).id = u.id)
    (hrole : ∀ u ∈ users, (f u).role = .superAdmin ↔ u.role = .superAdmin) :
    Sole (users.map f) a := by
  refine ⟨?_, ?_, fun u hu hsuper => ?_⟩
  · have hids : (users.map f).map User.id = users.map User.id := by simp [Function.comp_def, hid]
    rw [hids]
    exact h.distinct
  · obtain ⟨u, hu, hua, hsuper⟩ := h.holds
    exact ⟨f u, List.mem_map_of_mem hu, (hid u).trans hua, (hrole u hu).mpr hsuper⟩
  · obtain ⟨v, hv, rfl⟩ := List.mem_map.mp hu
    rw [hid]
    exact h.only v hv ((hrole v hv).mp hsuper)

theorem activeAt_map (hid : ∀ u, (f u).id = u.id)
    (hactive : ∀ u ∈ users, u.id = a → (f u).isActive = u.isActive) :
    ActiveAt (users.map f) a ↔ ActiveAt users a := by
  constructor
  · rintro ⟨_, hmem, hfa, hf⟩
    obtain ⟨u, hu, rfl⟩ := List.mem_map.mp hmem
    rw [hid] at hfa
    exact ⟨u, hu, hfa, (hactive u hu hfa).symm.trans hf⟩
  · rintro ⟨u, hu, hua, hact⟩
    exact ⟨f u, List.mem_map_of_mem hu, (hid u).trans hua, (hactive u hu hua).trans hact⟩

/-- A new account under a new id, no super admin. -/
theorem Sole.insert (h : Sole users a) (hrole : user.role ≠ .superAdmin)
    (hins : insertUser users user e = .ok users') :
    Sole users' a ∧ (ActiveAt users' a ↔ ActiveAt users a) := by
  obtain ⟨_, hfresh, hok⟩ := bind_eq_ok.1 hins
  cases hok
  have hnew : ∀ u ∈ users, u.id ≠ user.id := by
    intro u hu heq
    have hany := require_eq_ok.1 hfresh
    rw [Bool.not_eq_true', List.any_eq_false] at hany
    exact hany u hu (by simp [heq])
  obtain ⟨v, hv, hva, hsuper⟩ := h.holds
  refine ⟨⟨?_, ⟨v, List.mem_append_left _ hv, hva, hsuper⟩, fun u hu hs => ?_⟩, ?_⟩
  · rw [List.map_append, List.nodup_append]
    refine ⟨h.distinct, by simp, fun i hi j hj => ?_⟩
    obtain ⟨u, hu, rfl⟩ := List.mem_map.mp hi
    obtain rfl : j = user.id := by simpa using hj
    exact hnew u hu
  · rcases List.mem_append.mp hu with hu | hu
    · exact h.only u hu hs
    · rw [List.mem_singleton.mp hu] at hs
      exact absurd hs hrole
  · constructor
    · rintro ⟨u, hu, hua, hact⟩
      rcases List.mem_append.mp hu with hu | hu
      · exact ⟨u, hu, hua, hact⟩
      · exact absurd (hva.trans (List.mem_singleton.mp hu ▸ hua).symm) (hnew v hv)
    · rintro ⟨u, hu, hua, hact⟩
      exact ⟨u, List.mem_append_left _ hu, hua, hact⟩

theorem register_sole (h : Sole users a) {data : UserCreate} {id : Nat}
    (hok : register passwordPolicy users current data id = .ok users') :
    Sole users' a ∧ (ActiveAt users' a ↔ ActiveAt users a) := by
  unfold register at hok
  obtain ⟨_, -, hok⟩ := bind_eq_ok.1 hok
  obtain ⟨_, hsuper, hok⟩ := bind_eq_ok.1 hok
  obtain ⟨_, -, hok⟩ := bind_eq_ok.1 hok
  refine h.insert (fun hrole => ?_) hok
  obtain ⟨v, hv, -, hvrole⟩ := h.holds
  have hnone := require_eq_ok.1 hsuper
  simp only [show data.role = .superAdmin from hrole, bne_self_eq_false, Bool.false_or,
    Bool.not_eq_true', List.any_eq_false] at hnone
  exact hnone v hv (by simp [hvrole])

/-- An update leaves the super admin its role and its account active. -/
theorem updateUser_sole (h : Sole users a) (hcurrent : current ∈ users) (hact : current.isActive)
    (hok : updateUser users current userId data = .ok users') :
    Sole users' a ∧ (ActiveAt users' a ↔ ActiveAt users a) := by
  unfold updateUser at hok
  obtain ⟨user, huser, hok⟩ := bind_eq_ok.1 hok
  obtain ⟨hmem, hid⟩ := getUser_ok huser
  obtain ⟨_, hown, hok⟩ := bind_eq_ok.1 hok
  obtain ⟨_, hself, hok⟩ := bind_eq_ok.1 hok
  obtain ⟨_, hmanage, hok⟩ := bind_eq_ok.1 hok
  obtain ⟨_, hrole, hok⟩ := bind_eq_ok.1 hok
  obtain ⟨_, -, hok⟩ := bind_eq_ok.1 hok
  cases hok
  -- only the super admin manages the super admin
  have hsuper : user.role = .superAdmin → user = current := by
    intro hs
    have hlevel := of_decide_eq_true (require_eq_ok.1 hmanage)
    rw [hs] at hlevel
    exact h.eq_of_id hmem hcurrent
      ((h.only user hmem hs).trans (h.only current hcurrent (superAdmin_of_level hlevel)).symm)
  have hkeeps : (data.apply user).role = .superAdmin ↔ user.role = .superAdmin := by
    cases hdata : data.role.join with
    | none => simp [UserUpdate.apply, hdata]
    | some role =>
      rw [hdata] at hrole hown
      have hnew : (data.apply user).role = role := by simp [UserUpdate.apply, hdata]
      rw [hnew]
      constructor
      · rintro rfl
        by_contra hnot
        obtain ⟨_, -, hexists⟩ := bind_eq_ok.1 hrole
        have hnone := require_eq_ok.1 hexists
        obtain ⟨v, hv, -, hvrole⟩ := h.holds
        simp only [bne_self_eq_false, Bool.false_or, Bool.or_eq_true, beq_iff_eq, hnot, false_or,
          Bool.not_eq_true', otherSuperAdmin, List.any_eq_false] at hnone
        have hvid : v.id = user.id := by simpa [hvrole] using hnone v hv
        exact hnot (h.eq_of_id hv hmem hvid ▸ hvrole)
      · intro hs
        have hsame := require_eq_ok.1 hown
        simp only [hsuper hs, bne_self_eq_false, Bool.false_or, Option.all_some, beq_iff_eq] at hsame
        rw [hsame, ← hsuper hs, hs]
  have hmap : ∀ u ∈ users, u.id = userId → u = user := fun u hu hu' =>
    h.eq_of_id hu hmem (hu'.trans hid.symm)
  have hids : ∀ u : User, (if u.id = userId then data.apply u else u).id = u.id := by
    intro u
    split <;> rfl
  refine ⟨h.map hids fun u hu => ?_, activeAt_map hids fun u hu hua => ?_⟩
  · split
    · rename_i hu'
      rw [hmap u hu hu']
      exact hkeeps
    · rfl
  · split
    · rename_i hu'
      obtain rfl := hmap u hu hu'
      have hsame := hsuper (h.role_of_id hu hua)
      subst hsame
      have hstays := require_eq_ok.1 hself
      simp only [bne_self_eq_false, Bool.false_or, bne_iff_ne, ne_eq] at hstays
      cases hdata : data.isActive.join with
      | none => simp [UserUpdate.apply, hdata]
      | some b =>
        cases b with
        | true => simp [UserUpdate.apply, hdata, hact]
        | false => exact absurd hdata hstays
    · rfl

theorem softDeleteUser_sole (h : Sole users a) (hok : softDeleteUser users userId = .ok users') :
    Sole users' a ∧ (ActiveAt users' a ↔ ActiveAt users a ∧ userId ≠ a) := by
  unfold softDeleteUser at hok
  obtain ⟨user, -, hok⟩ := bind_eq_ok.1 hok
  cases hok
  have hids : ∀ u : User, (if u.id = userId then { u with isActive := false } else u).id = u.id := by
    intro u
    split <;> rfl
  refine ⟨h.map hids fun u _ => by split <;> rfl, ?_⟩
  by_cases hua : userId = a
  · subst hua
    refine iff_of_false ?_ (by simp)
    rintro ⟨_, hmem, hid, hact⟩
    obtain ⟨u, -, rfl⟩ := List.mem_map.mp hmem
    rw [hids] at hid
    simp [hid] at hact
  · rw [activeAt_map hids fun u _ hu => by rw [if_neg (fun hu' => hua (hu'.symm.trans hu))]]
    simp [hua]

theorem deleteUserPermanently_sole {nProjects : Nat} (h : Sole users a) (hid : current.id = a)
    (hok : deleteUserPermanently users current userId nProjects = .ok users') :
    Sole users' a ∧ (ActiveAt users' a ↔ ActiveAt users a) := by
  unfold deleteUserPermanently at hok
  obtain ⟨user, huser, hok⟩ := bind_eq_ok.1 hok
  obtain ⟨_, hself, hok⟩ := bind_eq_ok.1 hok
  obtain ⟨_, -, hok⟩ := bind_eq_ok.1 hok
  obtain ⟨_, -, hok⟩ := bind_eq_ok.1 hok
  obtain ⟨_, -, hok⟩ := bind_eq_ok.1 hok
  cases hok
  have hne : a ≠ userId := by
    rintro rfl
    have hother := require_eq_ok.1 hself
    rw [(getUser_ok huser).2, hid] at hother
    simp at hother
  have hmem : ∀ u ∈ users, u.id = a → u ∈ users.filter fun u => u.id != userId := by
    intro u hu hua
    exact List.mem_filter.mpr ⟨hu, by simpa [hua] using hne⟩
  obtain ⟨v, hv, hva, hvrole⟩ := h.holds
  refine ⟨⟨(List.filter_sublist.map _).nodup h.distinct, ⟨v, hmem v hv hva, hva, hvrole⟩,
    fun u hu => h.only u (List.mem_of_mem_filter hu)⟩, ?_⟩
  constructor
  · rintro ⟨u, hu, hua, hact⟩
    exact ⟨u, List.mem_of_mem_filter hu, hua, hact⟩
  · rintro ⟨u, hu, hua, hact⟩
    exact ⟨u, hmem u hu hua, hua, hact⟩

theorem samlAcs_sole {email : Text} {id : Nat} (h : Sole users a)
    (hok : samlAcs users email id = .ok users') :
    Sole users' a ∧ (ActiveAt users' a ↔ ActiveAt users a) := by
  unfold samlAcs at hok
  split at hok
  · obtain ⟨_, -, hok⟩ := bind_eq_ok.1 hok
    cases hok
    exact ⟨h, Iff.rfl⟩
  · exact h.insert (by simp) hok

/-- Whoever passes as super admin is the one account. -/
theorem current_eq (h : Sole users a) (hcurrent : getCurrentActiveUser users actor = .ok current)
    (hrole : requireRole [.superAdmin] current = .ok ()) :
    actor = a ∧ current.id = a ∧ current.isActive := by
  obtain ⟨hmem, hid, hact⟩ := getCurrentActiveUser_ok hcurrent
  have hsuper : current.role = .superAdmin := by simpa [requireRole] using hrole
  have hcid := h.only current hmem hsuper
  exact ⟨hid.symm.trans hcid, hcid, hact⟩

theorem serve_sole (h : Sole users a) (hok : serve passwordPolicy users r = .ok users') :
    Sole users' a ∧ (ActiveAt users' a ↔ ActiveAt users a ∧ r ≠ .softDelete a a) := by
  cases r with
  | register actor data id =>
    obtain ⟨current, -, hok⟩ := bind_eq_ok.1 hok
    obtain ⟨_, -, hok⟩ := bind_eq_ok.1 hok
    simpa using register_sole h hok
  | update actor userId data =>
    obtain ⟨current, hcurrent, hok⟩ := bind_eq_ok.1 hok
    obtain ⟨_, -, hok⟩ := bind_eq_ok.1 hok
    obtain ⟨hmem, -, hact⟩ := getCurrentActiveUser_ok hcurrent
    simpa using updateUser_sole h hmem hact hok
  | softDelete actor userId =>
    obtain ⟨current, hcurrent, hok⟩ := bind_eq_ok.1 hok
    obtain ⟨_, hrole, hok⟩ := bind_eq_ok.1 hok
    obtain ⟨rfl, -, -⟩ := current_eq h hcurrent hrole
    simpa using softDeleteUser_sole h hok
  | deletePermanently actor userId nProjects =>
    obtain ⟨current, hcurrent, hok⟩ := bind_eq_ok.1 hok
    obtain ⟨_, hrole, hok⟩ := bind_eq_ok.1 hok
    obtain ⟨-, hcid, -⟩ := current_eq h hcurrent hrole
    simpa using deleteUserPermanently_sole h hcid hok
  | saml email id => simpa using samlAcs_sole h hok

/-- An active super admin can deactivate itself. -/
theorem serve_self (h : Sole users a) (hact : ActiveAt users a) :
    ∃ users', serve passwordPolicy users (.softDelete a a) = .ok users' := by
  obtain ⟨u, hu, hua, hactive⟩ := hact
  have hfound : getUser users a = .ok u := by
    cases hfind : users.find? fun u => u.id == a with
    | none =>
      rw [List.find?_eq_none] at hfind
      exact absurd (by simpa using hua) (hfind u hu)
    | some v =>
      have hv : v.id = a := by simpa using List.find?_some hfind
      rw [getUser, hfind, h.eq_of_id hu (List.mem_of_find?_eq_some hfind) (hua.trans hv.symm)]
  have hcurrent : getCurrentActiveUser users a = .ok u :=
    bind_eq_ok.2 ⟨u, hfound, bind_eq_ok.2 ⟨(), require_eq_ok.2 hactive, rfl⟩⟩
  have hrole : requireRole [.superAdmin] u = .ok () :=
    require_eq_ok.2 (by simp [h.role_of_id hu hua])
  exact ⟨_, bind_eq_ok.2 ⟨u, hcurrent, bind_eq_ok.2 ⟨(), hrole,
    bind_eq_ok.2 ⟨u, hfound, rfl⟩⟩⟩⟩

theorem handle_sole (h : Sole users a) : Sole (handle passwordPolicy users r) a ∧
    (ActiveAt (handle passwordPolicy users r) a ↔ ActiveAt users a ∧ r ≠ .softDelete a a) := by
  unfold handle
  cases hserve : serve passwordPolicy users r with
  | ok users' => exact serve_sole h hserve
  | error e =>
    refine ⟨h, fun hact => ⟨hact, ?_⟩, And.left⟩
    rintro rfl
    obtain ⟨users', hok⟩ := @serve_self passwordPolicy _ _ h hact
    rw [hserve] at hok
    cases hok

/-- Whatever is requested, the super admin stays the only one, and stays active until it deactivates
itself; then no request makes it active again. -/
theorem super_admin_along (h : Sole users a) (rs : List Request) :
    Sole (rs.foldl (handle passwordPolicy) users) a ∧
      (ActiveAt (rs.foldl (handle passwordPolicy) users) a ↔
        ActiveAt users a ∧ Request.softDelete a a ∉ rs) := by
  induction rs generalizing users with
  | nil => exact ⟨h, by simp⟩
  | cons r rs ih =>
    obtain ⟨hsole, hactive⟩ := @handle_sole passwordPolicy _ _ r h
    obtain ⟨hrun, hrunActive⟩ := ih hsole
    refine ⟨hrun, ?_⟩
    rw [List.foldl_cons, hrunActive, hactive, List.mem_cons, not_or, and_assoc, ne_comm]

theorem super_admin_locked_out :
    Sole ([Request.saml "a@b".toList 2, .softDelete 1 1, .update 2 1 ⟨none, none, some (some true)⟩].foldl
      (handle fun _ => true) [⟨1, "s@b".toList, none, "s".toList, .superAdmin, true⟩]) 1 ∧
    ¬ ActiveAt ([Request.saml "a@b".toList 2, .softDelete 1 1,
      .update 2 1 ⟨none, none, some (some true)⟩].foldl
      (handle fun _ => true) [⟨1, "s@b".toList, none, "s".toList, .superAdmin, true⟩]) 1 := by
  have h : Sole [⟨1, "s@b".toList, none, "s".toList, .superAdmin, true⟩] 1 := by
    refine ⟨by simp, ⟨_, List.mem_singleton_self _, rfl, rfl⟩, fun u hu _ => ?_⟩
    rw [List.mem_singleton.mp hu]
  obtain ⟨hsole, hactive⟩ := @super_admin_along (fun _ => true) _ _ h
    [.saml "a@b".toList 2, .softDelete 1 1, .update 2 1 ⟨none, none, some (some true)⟩]
  exact ⟨hsole, fun hact => (hactive.mp hact).2 (by simp)⟩

end RownRg.Accounts

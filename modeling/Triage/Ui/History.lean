import Triage.Machine.Basic
import Triage.Data.FMap

/-!
# The history of the managed pages

The managed pages keep the browser's history: a page that is navigated to is loaded first, and its
path is written when it is there, in an entry of its own or in place of the current one. Loads
finish in any order, pages show themselves early, move within themselves and repaint, and the user
goes back and forward meanwhile.
-/

namespace Triage.Ui

/-- A URL of this origin: its path with the query, and its fragment. -/
structure Url where
  path : String
  hash : String
  deriving DecidableEq

/-- A route to a page.  `rest` is what only the paths are made of. -/
structure Route (Rest : Type) where
  view : String
  teamSlug : Option String
  reportSlug : Option String
  bundleTab : Option String
  bundleSlug : Option String
  packageName : Option String
  packageSpec : Option String
  repoId : Option ℕ
  commit : Option String
  path : Option String
  file : Option ℕ
  finding : Option String
  rest : Rest

namespace Route

variable {Rest : Type}

/-- A route that names nothing but its view. -/
def ofView (view : String) (rest : Rest) : Route Rest :=
  ⟨view, none, none, none, none, none, none, none, none, none, none, none, rest⟩

def sameFindingsPage (a b : Route Rest) : Bool :=
  a.view = "findings" && b.view = "findings" && a.teamSlug = b.teamSlug &&
    a.reportSlug = b.reportSlug

/-- The Code tab of one bundle, of one npm package version, or of one repository directory at a
commit. -/
def sameBundleCode (a b : Route Rest) : Bool :=
  if a.bundleTab ≠ some "code" ∨ b.bundleTab ≠ some "code" ∨ a.view ≠ b.view then false
  else if a.view = "npm" then a.packageName = b.packageName && a.packageSpec = b.packageSpec
  else if a.view = "repository-code" then
    a.repoId = b.repoId && a.commit = b.commit && a.path.getD "" = b.path.getD ""
  else a.view = "bundles" && a.teamSlug = b.teamSlug && a.bundleSlug = b.bundleSlug

end Route

/-- What the pages are named by, and the fragment that the document was loaded with. -/
structure Site (Rest : Type) where
  managedRoutePath : Route Rest → Option Url
  parseManagedRoute : Url → Option (Route Rest)
  extractFindingRef : String → Option String
  /-- The route `{ view: 'home' }`. -/
  home : Route Rest
  initialHash : String
  publicShare : Option (String × String)

namespace Site

variable {Rest : Type} (site : Site Rest)

def publicSharePath (url : Url) : Url :=
  match site.publicShare with
  | none => url
  | some (id, token) => ⟨url.path, "#public=" ++ id ++ "." ++ token⟩

def routeAt (url : Url) : Option (Route Rest) :=
  (site.parseManagedRoute url).map fun route =>
    if route.view = "home" then
      match site.extractFindingRef url.hash with
      | none => route
      | some finding => { route with finding := some finding }
    else route

end Site

/-! ### The browser -/

/-- An entry: the navigation generation in its state, and its URL. -/
structure HistoryEntry (Gen : Type) where
  key : Option Gen
  url : Url
  deriving DecidableEq

/-- The entries of the browser: those before the current one, the last first, and those after. -/
structure Browser (Gen : Type) where
  before : List (HistoryEntry Gen)
  current : HistoryEntry Gen
  after : List (HistoryEntry Gen)

namespace Browser

variable {Gen : Type} (b : Browser Gen)

def replaceState (entry : HistoryEntry Gen) : Browser Gen := { b with current := entry }

def pushState (entry : HistoryEntry Gen) : Browser Gen := ⟨b.current :: b.before, entry, []⟩

/-- Back or Forward, by `n` entries. -/
def go (forward : Bool) : ℕ → Browser Gen → Option (Browser Gen)
  | 0, b => some b
  | n + 1, b =>
    match forward, b.before, b.after with
    | false, entry :: before, after => go forward n ⟨before, entry, b.current :: after⟩
    | true, before, entry :: after => go forward n ⟨b.current :: before, entry, after⟩
    | _, _, _ => none

end Browser

/-! ### The module -/

/-- The object of a navigation.  `obj` is the identity of the route object it was given, `hash` the
finding link it follows. -/
structure Pending (Rest : Type) where
  obj : ℕ
  route : Route Rest
  path : Url
  pop : Bool
  replacing : Bool
  hash : Option Url
  shown : Bool
  findingRoute : Option (Route Rest)
  codeRoute : Option (Route Rest)

/-- What a navigation waits for: its page, or the home page after that failed. -/
inductive Loading
  | page
  | home
  deriving DecidableEq

/-- How the load of a page ends; one that succeeds may tell the route it ended on. -/
inductive Loaded (Rest : Type)
  | failed
  | ok (route : Option (Route Rest))

/-- The variables of the module, the objects of its navigations and what the calls wait for, each by
its request.  `page` and `added` are not the module's: the path of the page that was committed or
moved to last, and the requests that added an entry. -/
structure ManagedHistory (Gen Rest : Type) where
  browser : Browser Gen
  active : Bool
  generation : Option Gen
  revision : ℕ
  restoring : Option ℕ
  currentPath : Option Url
  findingUrl : Option Url
  objects : FMap ℕ (Pending Rest)
  loads : FMap ℕ Loading
  page : Option Url
  added : List ℕ

namespace ManagedHistory

variable {Gen Rest : Type} [DecidableEq Gen] (site : Site Rest) (s : ManagedHistory Gen Rest)

/-- The document is about to be reloaded for another public link. -/
def shareChanged : Bool :=
  "#public=".toList.isPrefixOf s.browser.current.url.hash.toList &&
    s.browser.current.url.hash ≠ site.initialHash

def isCurrent (request : ℕ) : Bool := s.active && request = s.revision && !s.shareChanged site

/-- The latest navigation is still loading. -/
def loading : Bool := (s.loads s.revision).isSome

def key : Option Gen := if s.active then s.generation else none

/-! ### Writing -/

def replace (path : Url) : ManagedHistory Gen Rest :=
  if s.shareChanged site then s
  else { s with
    browser := s.browser.replaceState ⟨s.key, site.publicSharePath path⟩
    currentPath := some (site.publicSharePath path) }

/-- `browser.history.pushState`, for the navigation or tab move `request`. -/
def pushState (request : ℕ) (path : Url) : ManagedHistory Gen Rest :=
  { s with
    browser := s.browser.pushState ⟨s.generation, path⟩
    currentPath := some path
    added := request :: s.added }

/-- The page is at `path` from now on. -/
def pageAt (path : Url) : ManagedHistory Gen Rest := { s with page := some path }

/-- A call ends, and with it the wait for its finding link. -/
def finish (request : ℕ) : ManagedHistory Gen Rest :=
  { s with
    loads := s.loads.erase request
    findingUrl := if ((s.objects request).bind (·.hash)).any (s.findingUrl = some ·) then none
      else s.findingUrl }

/-! ### Navigations -/

/-- `navigate`, up to the load of its page. -/
def navigate (obj : ℕ) (route : Option (Route Rest)) (replacing pop : Bool) (hash : Option Url) :
    ManagedHistory Gen Rest :=
  if !s.active || s.shareChanged site then s
  else
    match site.managedRoutePath (route.getD site.home) with
    | none => s
    | some path =>
      { s with
        revision := s.revision + 1
        restoring := some (s.revision + 1)
        findingUrl := if hash.isSome then hash else s.findingUrl
        objects := s.objects.insert (s.revision + 1)
          ⟨obj, route.getD site.home, path, pop, replacing, hash, false, none, none⟩
        loads := s.loads.insert (s.revision + 1) .page }

/-- The path that a navigation commits. -/
def commitPath (p : Pending Rest) (route : Option (Route Rest)) : Url :=
  have shown := route.getD p.route
  -- a route that is held has a path, which was looked at when it was
  if p.codeRoute.any (·.sameBundleCode shown) then
    (p.codeRoute.bind site.managedRoutePath).getD p.path
  else if p.findingRoute.any (·.sameFindingsPage shown) then
    (p.findingRoute.bind site.managedRoutePath).getD p.path
  else (route.bind site.managedRoutePath).getD p.path

/-- `navigate`, once its page is there. -/
def commit (request : ℕ) (p : Pending Rest) (path : Url) : ManagedHistory Gen Rest :=
  have s' := { s with restoring := none }
  (if p.pop || p.replacing || p.shown then s'.replace site path
  else if some (site.publicSharePath path) ≠ s.currentPath then
    s'.pushState request (site.publicSharePath path)
  else s') |>.pageAt (site.publicSharePath path) |>.finish request

/-- `navigate`, once the load of its page ended. -/
def loaded (request : ℕ) (result : Loaded Rest) : Option (ManagedHistory Gen Rest) :=
  match s.loads request, s.objects request with
  | some .page, some p =>
    if s.isCurrent site request then
      match result with
      | .failed => some { s with loads := s.loads.insert request .home }
      | .ok route => some (s.commit site request p (commitPath site p route))
    else some (s.finish request)
  | _, _ => none

/-- `navigate`, once the load of the home page ended, or threw. -/
def homeLoaded (request : ℕ) (threw : Bool) : Option (ManagedHistory Gen Rest) :=
  match s.loads request with
  | some .home =>
    if s.isCurrent site request then
      have s' := if threw then s else { s with restoring := none }.replace site ⟨"/", ""⟩
      some (s'.pageAt (site.publicSharePath ⟨"/", ""⟩) |>.finish request)
    else some (s.finish request)
  | _ => none

/-! ### Events -/

def onHash (obj : ℕ) : ManagedHistory Gen Rest :=
  have here := s.browser.current
  if !s.active || (site.extractFindingRef here.url.hash).isNone ||
      s.findingUrl = some here.url then s
  else if here.key.isSome && here.key ≠ s.generation then s
  -- a navigation that returns at once leaves no link to wait for
  else { s with findingUrl := none }.navigate site obj (site.routeAt here.url) true false here.url

/-- The route of a line link to the file that is open. -/
def adopted (here : HistoryEntry Gen) : Option (Route Rest) :=
  if here.key.isSome then none
  else
    match site.routeAt here.url, s.currentPath.bind site.parseManagedRoute with
    | some route, some current =>
      if route.file.isSome && route.file = current.file && route.sameBundleCode current then
        some route
      else none
    | _, _ => none

def onPop (obj : ℕ) : ManagedHistory Gen Rest :=
  have here := s.browser.current
  if s.shareChanged site then s
  else if !s.active then if here.key.isSome then s.replace site ⟨"/", ""⟩ else s
  else if (here.key.isNone || here.key = s.generation) &&
      (site.extractFindingRef here.url.hash).isSome then s.onHash site obj
  else
    match s.adopted site here with
    | some route =>
      match site.managedRoutePath route with
      | some path => (s.replace site path).pageAt (site.publicSharePath path)
      | none => { s with currentPath := none }
    | none =>
      s.navigate site obj (if here.key.isSome && here.key = s.generation then
        site.routeAt here.url else none) false true none

/-! ### The functions of the module -/

/-- `start`; `login` is the finding link that was remembered over a sign-in. -/
def start (random : Gen) (login : Option (Route Rest)) (obj : ℕ) : ManagedHistory Gen Rest :=
  if s.active then s
  else
    have route := (site.routeAt s.browser.current.url).getD site.home
    { s with
      active := true
      generation := some (s.browser.current.key.getD random)
      page := none }.navigate site obj
        (if route.view = "home" ∧ route.finding = none then some (login.getD route) else some route)
        true false none

def reset (force : Bool) : ManagedHistory Gen Rest :=
  have s' := { s with revision := s.revision + 1, restoring := none }
  if s.active || force then
    { s' with active := false, generation := none, page := none }.replace site ⟨"/", ""⟩
  else s'

/-- The object of the navigation in `restoring`. -/
def pending : Option (ℕ × Pending Rest) :=
  s.restoring.bind fun request => (s.objects request).map (request, ·)

def setObject (request : ℕ) (p : Pending Rest) : ManagedHistory Gen Rest :=
  { s with objects := s.objects.insert request p }

/-- What the repaints share: a page that is the `same` as the current one repaints to `path`, and
`hold` keeps its route for a navigation. -/
def repaint (path : Url) (same : Route Rest → Bool)
    (hold : Pending Rest → Pending Rest) : ManagedHistory Gen Rest :=
  match s.pending with
  | some (request, p) => s.setObject request (hold p)
  | none =>
    if (site.parseManagedRoute s.browser.current.url).any same &&
        some (site.publicSharePath path) ≠ s.currentPath then
      (s.replace site path).pageAt (site.publicSharePath path)
    else s

def replaceFindingRoute (route : Route Rest) : ManagedHistory Gen Rest :=
  if !s.active || route.view ≠ "findings" || s.shareChanged site then s
  else
    match site.managedRoutePath route with
    | none => s
    | some path =>
      s.repaint site path route.sameFindingsPage fun p =>
        if p.route.view = "home" ∧ p.route.finding.isSome ∨
            route.sameFindingsPage { p.route with view := "findings" } then
          { p with findingRoute := some route }
        else p

def replaceCodeRoute (route : Route Rest) : ManagedHistory Gen Rest :=
  if !s.active || s.shareChanged site ||
      !(["bundles", "npm", "repository-code"].contains route.view) || route.bundleTab ≠ some "code"
  then s
  else
    match site.managedRoutePath route with
    | none => s
    | some path =>
      s.repaint site path route.sameBundleCode fun p =>
        if route.sameBundleCode p.route then { p with codeRoute := some route } else p

/-- The page of a navigation that is still loading shows itself. -/
def showing (obj : ℕ) : ManagedHistory Gen Rest :=
  match s.pending with
  | none => s
  | some (request, p) =>
    if !s.active || s.shareChanged site || p.obj ≠ obj || p.shown then s
    else
      have s' := s.setObject request { p with shown := true }
      have path := site.publicSharePath p.path
      if p.pop || p.replacing || some path = s.currentPath then s'.replace site p.path
      else s'.pushState request path

def replaceRoute (route : Option (Route Rest)) : ManagedHistory Gen Rest :=
  if !s.active || s.shareChanged site || s.restoring.isSome then s
  else
    match route.bind site.managedRoutePath with
    | none => s
    | some path => (s.replace site path).pageAt (site.publicSharePath path)

def pushRoute (route : Option (Route Rest)) : ManagedHistory Gen Rest :=
  if !s.active || s.shareChanged site then s
  else
    match route.bind site.managedRoutePath with
    | none => s
    | some path =>
      have s' := { s with revision := s.revision + 1, restoring := none }
      (if some (site.publicSharePath path) ≠ s.currentPath then
        s'.pushState (s.revision + 1) (site.publicSharePath path)
      else s') |>.pageAt (site.publicSharePath path)

end ManagedHistory

/-- A call of a function, the end of a load, or a move of the browser.  `obj` is the identity of a
route object. -/
inductive HistoryLabel (Gen Rest : Type)
  | start (random : Gen) (login : Option (Route Rest)) (obj : ℕ)
  | reset (force : Bool)
  | navigate (obj : ℕ) (route : Option (Route Rest)) (replacing : Bool)
  | loaded (request : ℕ) (result : Loaded Rest)
  | homeLoaded (request : ℕ) (threw : Bool)
  | traverse (forward : Bool) (n obj : ℕ)
  | hashChange (obj : ℕ)
  | replaceFindingRoute (route : Route Rest)
  | replaceCodeRoute (route : Route Rest)
  | showing (obj : ℕ)
  | replaceRoute (route : Option (Route Rest))
  | pushRoute (route : Option (Route Rest))

/-- The managed history of a site.  A document that is about to be reloaded is not gone back or
forward in. -/
def managedHistory {Gen Rest : Type} [DecidableEq Gen] (site : Site Rest) :
    Machine (ManagedHistory Gen Rest) (HistoryLabel Gen Rest) where
  step s
    | .start random login obj => some (s.start site random login obj)
    | .reset force => some (s.reset site force)
    | .navigate obj route replacing => some (s.navigate site obj route replacing false none)
    | .loaded request result => s.loaded site request result
    | .homeLoaded request threw => s.homeLoaded site request threw
    | .traverse forward n obj =>
      if s.shareChanged site then none
      else (Browser.go forward (n + 1) s.browser).map fun browser =>
        ManagedHistory.onPop site { s with browser } obj
    | .hashChange obj => some (s.onHash site obj)
    | .replaceFindingRoute route => some (s.replaceFindingRoute site route)
    | .replaceCodeRoute route => some (s.replaceCodeRoute site route)
    | .showing obj => some (s.showing site obj)
    | .replaceRoute route => some (s.replaceRoute site route)
    | .pushRoute route => some (s.pushRoute site route)

/-- The module when it is loaded, in a browser that may have been elsewhere before. -/
def ManagedHistory.init {Gen Rest : Type} (browser : Browser Gen) : ManagedHistory Gen Rest :=
  ⟨browser, false, none, 0, none, none, none, ∅, ∅, none, []⟩

end Triage.Ui

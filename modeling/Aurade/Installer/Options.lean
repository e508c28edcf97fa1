import Aurade.Installer.Journal

/-!
# What the engine is asked for

The argument vector becomes `Options`, words as they were given (`parse`), and these become
`Settings` once every check on them has passed (`validate`). In `Settings` what the checks
establish is in the types: the modes and shapes are enumerations, and the token is the one the
target and the layout ask for.
-/

namespace Aurade.Installer

/-- `MODE`. -/
inductive Mode
  | dryRun
  | execute
  deriving DecidableEq

/-- `--swap`. -/
inductive Swap
  | none
  | file
  | zram
  deriving DecidableEq

/-- `--staging`. -/
inductive Staging
  | auto
  | workspace
  | target
  deriving DecidableEq

/-- `--layout`. -/
inductive Layout
  | wipe
  | alongside
  deriving DecidableEq

/-- The options as words. -/
structure Options where
  mode : Mode := .dryRun
  target : Bytes := []
  confirm : Bytes := []
  mountpoint : Bytes := text "/mnt/aurade-target"
  hostname : Bytes := text "aurade"
  username : Bytes := []
  passwordHashFile : Bytes := []
  luks : Bool := false
  luksPassphraseFile : Bytes := []
  archSnapshot : Bytes := []
  bundleDir : Bytes := text "/opt/aurade/repo"
  packageLock : Bytes := []
  repoName : Bytes := text "aurade"
  repoUrl : Bytes := []
  repoKey : Bytes := []
  repoFingerprint : Bytes := []
  allowUnsigned : Bool := false
  allowLoop : Bool := false
  timezone : Bytes := text "UTC"
  locale : Bytes := text "en_US.UTF-8"
  keymap : Bytes := text "us"
  filesystem : Bytes := text "btrfs"
  swap : Bytes := text "none"
  stagingMode : Bytes := text "auto"
  screenReader : Bytes := text "no"
  braille : Bytes := text "no"
  contrast : Bytes := text "normal"
  textScale : Bytes := text "100"
  reduceMotion : Bytes := text "no"
  cursorSize : Bytes := text "24"
  spacing : Bytes := text "normal"
  typeface : Bytes := text "system"
  hardwareSupport : Bytes := text "auto"
  featureProfile : Bytes := text "auto"
  wallpaper : Bytes := text "auto"
  displayScale : Bytes := text "auto"
  apps : Bytes := text "none"
  autoSnapshots : Bytes := text "no"
  swapSize : Bytes := text "auto"
  layout : Bytes := text "wipe"
  secureBootKeyFile : Bytes := []
  secureBootCertFile : Bytes := []
  secureBootEnroll : Bytes := text "manual"
  deriving DecidableEq

/-! ## The argument vector -/

/-- The options that take a word. -/
def valued : List (String × (Bytes → Options → Options)) :=
  [("--target", fun v o => { o with target := v }),
    ("--username", fun v o => { o with username := v }),
    ("--password-hash-file", fun v o => { o with passwordHashFile := v }),
    ("--arch-snapshot", fun v o => { o with archSnapshot := v }),
    ("--bundle-dir", fun v o => { o with bundleDir := v }),
    ("--package-lock", fun v o => { o with packageLock := v }),
    ("--repo-key", fun v o => { o with repoKey := v }),
    ("--repo-fingerprint", fun v o => { o with repoFingerprint := v }),
    ("--repo-name", fun v o => { o with repoName := v }),
    ("--repo-url", fun v o => { o with repoUrl := v }),
    ("--mountpoint", fun v o => { o with mountpoint := v }),
    ("--hostname", fun v o => { o with hostname := v }),
    ("--timezone", fun v o => { o with timezone := v }),
    ("--locale", fun v o => { o with locale := v }),
    ("--keymap", fun v o => { o with keymap := v }),
    ("--luks-passphrase-file", fun v o => { o with luksPassphraseFile := v }),
    ("--filesystem", fun v o => { o with filesystem := v }),
    ("--swap", fun v o => { o with swap := v }),
    ("--swap-size", fun v o => { o with swapSize := v }),
    ("--staging", fun v o => { o with stagingMode := v }),
    ("--layout", fun v o => { o with layout := v }),
    ("--screen-reader", fun v o => { o with screenReader := v }),
    ("--braille", fun v o => { o with braille := v }),
    ("--contrast", fun v o => { o with contrast := v }),
    ("--text-scale", fun v o => { o with textScale := v }),
    ("--reduce-motion", fun v o => { o with reduceMotion := v }),
    ("--cursor-size", fun v o => { o with cursorSize := v }),
    ("--spacing", fun v o => { o with spacing := v }),
    ("--typeface", fun v o => { o with typeface := v }),
    ("--hardware-support", fun v o => { o with hardwareSupport := v }),
    ("--feature-profile", fun v o => { o with featureProfile := v }),
    ("--display-scale", fun v o => { o with displayScale := v }),
    ("--wallpaper", fun v o => { o with wallpaper := v }),
    ("--apps", fun v o => { o with apps := v }),
    ("--auto-snapshots", fun v o => { o with autoSnapshots := v }),
    ("--secure-boot-key", fun v o => { o with secureBootKeyFile := v }),
    ("--secure-boot-cert", fun v o => { o with secureBootCertFile := v }),
    ("--secure-boot-enroll", fun v o => { o with secureBootEnroll := v }),
    ("--confirm", fun v o => { o with confirm := v })]

/-- The options that stand alone. The last of `--execute` and `--dry-run` counts. -/
def flags : List (String × (Options → Options)) :=
  [("--encrypt", fun o => { o with luks := true }),
    ("--allow-unsigned", fun o => { o with allowUnsigned := true }),
    ("--allow-loop", fun o => { o with allowLoop := true }),
    ("--execute", fun o => { o with mode := .execute }),
    ("--dry-run", fun o => { o with mode := .dryRun })]

/-- How reading the arguments ends. -/
inductive Parsed
  | options (o : Options)
  /-- `--help` -/
  | usage
  /-- `${2:?}`: the word is missing or empty. -/
  | missing
  | unknown (word : Bytes)
  deriving DecidableEq

/-- The argument loop, over at most `n` arguments. -/
def parseAux : ℕ → List Bytes → Options → Parsed
  | 0, _, o => .options o
  | _ + 1, [], o => .options o
  | n + 1, a :: rest, o =>
    match valued.find? fun e => text e.1 = a with
    | some e =>
      match rest with
      | [] => .missing
      | v :: rest => if v = [] then .missing else parseAux n rest (e.2 v o)
    | none =>
      match flags.find? fun e => text e.1 = a with
      | some e => parseAux n rest (e.2 o)
      | none => if a = text "-h" ∨ a = text "--help" then .usage else .unknown a

/-- The argument loop, from what the environment sets. -/
def parse (host : Host) (argv : List Bytes) : Parsed :=
  parseAux argv.length argv
    { repoUrl := host.defaultRepoUrl
      stagingMode := host.installStaging
      hardwareSupport := host.hardwareSupport
      secureBootKeyFile := host.secureBootKey
      secureBootCertFile := host.secureBootCert
      secureBootEnroll := host.secureBootEnroll }

/-! ## Patterns -/

/-- `[A-Za-z]` -/
def isAlpha (b : UInt8) : Bool := (65 ≤ b && b ≤ 90) || (97 ≤ b && b ≤ 122)

/-- `[A-Za-z0-9]` -/
def isAlnum (b : UInt8) : Bool := isAlpha b || isDigit b

/-- `[a-z]` -/
def isLower (b : UInt8) : Bool := 97 ≤ b && b ≤ 122

/-- `[A-Za-z0-9…]`, with the characters of `more`. -/
def alnumOr (more : String) (b : UInt8) : Bool := isAlnum b || (text more).contains b

/-- A first character, and up to `n` more. -/
def startsThen (first more : UInt8 → Bool) (n : ℕ) : Bytes → Bool
  | [] => false
  | b :: bs => first b && bs.all more && decide (bs.length ≤ n)

/-- `^[…]+$` -/
def allOf (p : UInt8 → Bool) (w : Bytes) : Bool := w ≠ [] && w.all p

/-- `*PART*` -/
def holds (part : String) (w : Bytes) : Bool := (findSub (text part) w).isSome

/-- One of several words. -/
def oneOf (ws : List String) (w : Bytes) : Bool := ws.any fun s => text s = w

/-- `^20[0-9]{2}/(0[1-9]|1[0-2])/(0[1-9]|[12][0-9]|3[01])$` -/
def isSnapshot (w : Bytes) : Bool :=
  match w with
  | [a, b, y, z, s, m, n, t, d, e] =>
    a == 50 && b == 48 && isDigit y && isDigit z && s == 47 &&
    ((m == 48 && isDigit n && n != 48) || (m == 49 && 48 ≤ n && n ≤ 50)) && t == 47 &&
    ((d == 48 && isDigit e && e != 48) || ((d == 49 || d == 50) && isDigit e) ||
      (d == 51 && (e == 48 || e == 49)))
  | _ => false

/-- `^[0-9]+[GM]$` -/
def isSize (w : Bytes) : Bool :=
  allOf isDigit w.dropLast && (w.getLast? = some 71 || w.getLast? = some 77)

/-- `^(https|file)://[^[:space:]\\]+$` -/
def isRepoUrl (w : Bytes) : Bool :=
  let rest := if (text "https://").isPrefixOf w then w.drop 8
    else if (text "file://").isPrefixOf w then w.drop 7 else []
  allOf (fun b => !(text " \t\n\r\\").contains b && b != 11 && b != 12) rest

/-- `^PART(/PART)*$` with `PART` in `[A-Za-z0-9_+.-]+`, and no `..` -/
def isTimezone (w : Bytes) : Bool :=
  (w.splitOn 47).all (allOf (alnumOr "_+.-")) && !holds ".." w

/-- `^[A-Za-z0-9._/+:-]+$` behind `/dev/` -/
def isDevicePath (w : Bytes) : Bool :=
  (text "/dev/").isPrefixOf w && allOf (alnumOr "._/+:-") (w.drop 5)

/-! ## The packages of an app -/

/-- `APP_PACKAGES`. -/
def appPackages : List (String × List String) :=
  [("firefox", ["firefox"]), ("vscode", ["code"]), ("flatpak", ["flatpak"]),
    ("waydroid", ["waydroid"]), ("devtools", ["base-devel", "git"])]

/-- The words of a comma list, as `IFS=, read -a` takes them from its first line: one empty word at
the end is none. -/
def commaList (w : Bytes) : List Bytes :=
  let ws := (w.takeWhile (· ≠ 10)).splitOn 44
  if ws.getLast? = some [] then ws.dropLast else ws

/-- `APP_LIST`: each app once, in order. -/
def appList (apps : Bytes) : List Bytes :=
  if apps = text "none" then [] else (commaList apps).eraseDups

/-- Whether every word of the list is an app. -/
def appsKnown (apps : Bytes) : Bool :=
  apps = text "none" ||
    (commaList apps ≠ [] && (commaList apps).all fun a => appPackages.any fun e => text e.1 = a)

/-! ## Checked options -/

/-- `--filesystem` as a word. -/
def FileSystem.word : FileSystem → Bytes
  | .btrfs => text "btrfs"
  | .ext4 => text "ext4"
  | .xfs => text "xfs"

/-- `--swap` as a word. -/
def Swap.word : Swap → Bytes
  | .none => text "none"
  | .file => text "file"
  | .zram => text "zram"

/-- `--staging` as a word. -/
def Staging.word : Staging → Bytes
  | .auto => text "auto"
  | .workspace => text "workspace"
  | .target => text "target"

/-- `--layout` as a word. -/
def Layout.word : Layout → Bytes
  | .wipe => text "wipe"
  | .alongside => text "alongside"

/-- The mode as a word. -/
def Mode.word : Mode → Bytes
  | .dryRun => text "dry-run"
  | .execute => text "execute"

/-- The options, once every check on them has passed. -/
structure Settings where
  /-- The words, with the target resolved and the package lock filled in. -/
  opts : Options
  filesystem : FileSystem
  swap : Swap
  staging : Staging
  layout : Layout
  filesystem_word : filesystem.word = opts.filesystem
  swap_word : swap.word = opts.swap
  staging_word : staging.word = opts.stagingMode
  layout_word : layout.word = opts.layout

namespace Settings

variable (s : Settings)

/-- `TARGET`. -/
def target : Bytes := s.opts.target

/-- `MODE`. -/
def mode : Mode := s.opts.mode

/-- `MOUNTPOINT`. -/
def mountpoint : Bytes := s.opts.mountpoint

/-- `LUKS`. -/
def luks : Bool := s.opts.luks

/-- `ERASE_TOKEN`: what is about to happen, and to which disk. -/
def eraseToken : Bytes :=
  match s.layout with
  | .alongside => text "INSTALL:" ++ s.target
  | .wipe => text "ERASE:" ++ s.target

/-- `ROOT_PARTITION_TYPE`. -/
def rootPartitionType : ℕ := if s.luks then 8309 else 8300

end Settings

/-- `partition_path`. -/
def partitionPath (disk : Bytes) (number : ℕ) : Bytes :=
  if ["/dev/nvme", "/dev/mmcblk", "/dev/loop"].any fun p => (text p).isPrefixOf disk then
    disk ++ text "p" ++ decimal number
  else disk ++ decimal number

variable (host : Host)

/-- The word as one of the values that can be meant, or `die`. -/
def choose {ι : Type} (values : List ι) (word : ι → Bytes) (w : Bytes) (message : Bytes) :
    Engine {v : ι // word v = w} :=
  match h : values.find? fun v => decide (word v = w) with
  | some v => pure ⟨v, by simpa using List.find?_some h⟩
  | none => die host message

/-- `${PATH%/}`. -/
def chopSlash (path : Bytes) : Bytes := if path.getLast? = some 47 then path.dropLast else path

/-- `canonical_device`. -/
def canonicalDevice (value : Bytes) : Engine Bytes := do
  let there ← asks host (.test .present value)
  if there then answer host (.canonical value) else pure value

/-- `secure_boot_validate_material`. -/
def secureBootValidateMaterial (key cert : Bytes) : Engine Unit := do
  orDie host (key ≠ [] && cert ≠ []) (text "Secure Boot signing requires both a private key and certificate")
  let readable ← asks host (.test .readable key)
  orDie host readable (text "Secure Boot private key is not readable: " ++ key)
  let readable ← asks host (.test .readable cert)
  orDie host readable (text "Secure Boot certificate is not readable: " ++ cert)
  let others ← look host (.query (.openToOthers key))
  orDie host (others.line = []) (text "Secure Boot private key must not be group/world accessible")
  let openssl ← asks host (.program (text "openssl"))
  orDie host openssl (text "openssl is required for Secure Boot key validation")
  let k ← look host (.query (.publicOfKey key))
  orDie host k.ok (text "Secure Boot private key is not a readable PEM key")
  let c ← look host (.query (.publicOfCert cert))
  orDie host c.ok (text "Secure Boot certificate is not a readable PEM X.509 certificate")
  orDie host (k.line ≠ [] && k.line = c.line)
    (text "Secure Boot private key and certificate do not contain the same public key")

/-- The checks on words that come before the filesystem's. -/
def identityChecks (o : Options) : List (Bool × Bytes) :=
  [(isDevicePath o.target, text "target device path contains unsupported characters"),
    (o.username ≠ [], text "--username is required"),
    (startsThen (fun b => isLower b || b == 95) (fun b => isLower b || isDigit b || b == 95 || b == 45)
      30 o.username, text "invalid username"),
    (startsThen isAlnum (alnumOr ".-") 62 o.hostname, text "invalid hostname"),
    (allOf (alnumOr "._-") o.repoName, text "invalid repository name"),
    (isRepoUrl o.repoUrl, text "--repo-url must be an HTTPS or file URL without whitespace"),
    (!holds "repo.aurade.invalid" o.repoUrl,
      text "--repo-url may not use the development placeholder host"),
    (o.mountpoint.head? = some 47 && o.mountpoint ≠ text "/",
      text "--mountpoint must be an absolute non-root path"),
    (isTimezone o.timezone, text "invalid timezone"),
    (allOf (alnumOr "_.@-") o.locale, text "invalid locale"),
    (allOf (alnumOr "_.@+-") o.keymap, text "invalid keymap")]

/-- The checks on words that come between staging's and swap's. -/
def desktopChecks (o : Options) : List (Bool × Bytes) :=
  [(oneOf ["yes", "no"] o.screenReader, text "--screen-reader must be yes or no"),
    (oneOf ["yes", "no"] o.braille, text "--braille must be yes or no"),
    (oneOf ["normal", "high"] o.contrast, text "--contrast must be normal or high"),
    (oneOf ["yes", "no"] o.reduceMotion, text "--reduce-motion must be yes or no"),
    (oneOf ["100", "125", "150"] o.textScale, text "--text-scale must be 100, 125 or 150"),
    (oneOf ["24", "32", "48"] o.cursorSize, text "--cursor-size must be 24, 32 or 48"),
    (oneOf ["normal", "roomy", "roomier"] o.spacing, text "--spacing must be normal, roomy or roomier"),
    (oneOf ["system", "atkinson", "opendyslexic"] o.typeface,
      text "--typeface must be system, atkinson or opendyslexic"),
    (oneOf ["auto", "off"] o.hardwareSupport, text "--hardware-support must be auto or off"),
    (oneOf ["auto", "standard", "plus", "advanced_plus", "advanced_plus_ai"] o.featureProfile,
      text "--feature-profile must be auto, standard, plus, advanced_plus or advanced_plus_ai"),
    (oneOf ["auto", "100", "125", "150", "175", "200"] o.displayScale,
      text "--display-scale must be auto, 100, 125, 150, 175 or 200"),
    (oneOf ["yes", "no"] o.autoSnapshots, text "--auto-snapshots must be yes or no"),
    (startsThen isLower (fun b => isLower b || isDigit b || b == 45) 63 o.wallpaper,
      text "--wallpaper must be auto or the name of a wallpaper, such as quiet-rainleaves"),
    (appsKnown o.apps,
      text "--apps must be none or a list of firefox, vscode, flatpak, waydroid and devtools")]

/-- Where two choices do not go together. -/
def shapeChecks (o : Options) (fs : FileSystem) (swap : Swap) : List (Bool × Bytes) :=
  [(swap ≠ .zram || o.swapSize ≠ text "hibernate",
      text "zram swap lives in memory, so it cannot be used for hibernation"),
    (fs ≠ .xfs || o.swapSize ≠ text "hibernate",
      text "hibernation needs a swap file with a stable physical offset, which xfs does not provide"),
    (o.autoSnapshots ≠ text "yes" || fs = .btrfs,
      text "automatic snapshots need btrfs, the only filesystem here that takes them"),
    (isSnapshot o.archSnapshot, text "--arch-snapshot must be YYYY/MM/DD")]

/-- The checks on the files that are given, their order kept. -/
def fileChecks (o : Options) : Engine Unit := do
  let readable ← asks host (.test .readable o.passwordHashFile)
  orDie host readable (text "password hash file is not readable: " ++ o.passwordHashFile)
  let others ← look host (.query (.openToOthers o.passwordHashFile))
  orDie host (others.line = []) (text "password hash file must not be group/world accessible")
  let hash ← asks host (.isHash o.passwordHashFile)
  orDie host hash (text "password hash must be a single crypt(3) hash, not plaintext")
  whenever o.luks do
    let readable ← asks host (.test .readable o.luksPassphraseFile)
    orDie host readable (text "--encrypt requires a readable --luks-passphrase-file")
    let filled ← asks host (.test .nonempty o.luksPassphraseFile)
    orDie host filled (text "LUKS passphrase file is empty")
    let others ← look host (.query (.openToOthers o.luksPassphraseFile))
    orDie host (others.line = []) (text "LUKS passphrase file must not be group/world accessible")
  let there ← asks host (.test .directory o.bundleDir)
  orDie host there (text "bundle directory does not exist: " ++ o.bundleDir)
  let readable ← asks host (.test .readable o.packageLock)
  orDie host readable (text "package lock does not exist: " ++ o.packageLock)
  forEach [text "aurade-recovery", text "aurade-hardware-qualify"] fun helper => do
    let path := host.selfDir ++ text "/" ++ helper
    let there ← asks host (.test .present path)
    orDie host there (text "installer helper is missing: " ++ path)
    let regular ← asks host (.test .regular path)
    let executable ← andAsks host regular (.test .executable path)
    let link ← andAsks host executable (.test .symlink path)
    orDie host (executable && !link)
      (text "installer helper must be a regular executable file: " ++ path)

/-- The checks on the options, from `--target is required` to the files. -/
def validate (o : Options) : Engine Settings := do
  orDie host (o.target ≠ []) (text "--target is required")
  orDie host ((text "/dev/").isPrefixOf o.target) (text "--target must be an absolute /dev path")
  let target ← canonicalDevice host o.target
  let lock := if o.packageLock = [] then chopSlash o.bundleDir ++ text "/packages.lock" else o.packageLock
  let o := { o with target := target, packageLock := lock }
  checks host (identityChecks o)
  let fs ← choose host [.btrfs, .ext4, .xfs] FileSystem.word o.filesystem
    (text "--filesystem must be btrfs, ext4 or xfs")
  let staging ← choose host [.auto, .workspace, .target] Staging.word o.stagingMode
    (text "--staging must be auto, workspace or target")
  checks host (desktopChecks o)
  let swap ← choose host [.none, .file, .zram] Swap.word o.swap
    (text "--swap must be none, file or zram")
  orDie host (oneOf ["auto", "hibernate"] o.swapSize || isSize o.swapSize)
    (text "--swap-size must be auto, hibernate, or a size like 8G")
  let layout ← choose host [.wipe, .alongside] Layout.word o.layout
    (text "--layout must be wipe or alongside")
  orDie host (oneOf ["manual", "if-safe"] o.secureBootEnroll)
    (text "--secure-boot-enroll must be manual or if-safe")
  whenever (o.secureBootKeyFile ≠ [] ∨ o.secureBootCertFile ≠ []) do
    orDie host (o.secureBootKeyFile ≠ [] && o.secureBootCertFile ≠ [])
      (text "--secure-boot-key and --secure-boot-cert must be provided together")
    secureBootValidateMaterial host o.secureBootKeyFile o.secureBootCertFile
  checks host (shapeChecks o fs.val swap.val)
  let day ← look host (.query (.date o.archSnapshot))
  orDie host (day.ok && day.line = o.archSnapshot) (text "--arch-snapshot is not a real calendar date")
  whenever (host.failureJournalDir ≠ [])
    (orDie host (host.failureJournalDir.head? = some 47 && host.failureJournalDir ≠ text "/")
      (text "AURADE_FAILURE_JOURNAL_DIR must be an absolute non-root path"))
  fileChecks host o
  pure
    { opts := o
      filesystem := fs.val
      swap := swap.val
      staging := staging.val
      layout := layout.val
      filesystem_word := fs.property
      swap_word := swap.property
      staging_word := staging.property
      layout_word := layout.property }

/-- `validate` once the target is resolved. -/
def validateFrom (o : Options) (target : Bytes) : Engine Settings := do
  let lock := if o.packageLock = [] then chopSlash o.bundleDir ++ text "/packages.lock" else o.packageLock
  let o := { o with target := target, packageLock := lock }
  checks host (identityChecks o)
  let fs ← choose host [.btrfs, .ext4, .xfs] FileSystem.word o.filesystem
    (text "--filesystem must be btrfs, ext4 or xfs")
  let staging ← choose host [.auto, .workspace, .target] Staging.word o.stagingMode
    (text "--staging must be auto, workspace or target")
  checks host (desktopChecks o)
  let swap ← choose host [.none, .file, .zram] Swap.word o.swap
    (text "--swap must be none, file or zram")
  orDie host (oneOf ["auto", "hibernate"] o.swapSize || isSize o.swapSize)
    (text "--swap-size must be auto, hibernate, or a size like 8G")
  let layout ← choose host [.wipe, .alongside] Layout.word o.layout
    (text "--layout must be wipe or alongside")
  orDie host (oneOf ["manual", "if-safe"] o.secureBootEnroll)
    (text "--secure-boot-enroll must be manual or if-safe")
  whenever (o.secureBootKeyFile ≠ [] ∨ o.secureBootCertFile ≠ []) do
    orDie host (o.secureBootKeyFile ≠ [] && o.secureBootCertFile ≠ [])
      (text "--secure-boot-key and --secure-boot-cert must be provided together")
    secureBootValidateMaterial host o.secureBootKeyFile o.secureBootCertFile
  checks host (shapeChecks o fs.val swap.val)
  let day ← look host (.query (.date o.archSnapshot))
  orDie host (day.ok && day.line = o.archSnapshot) (text "--arch-snapshot is not a real calendar date")
  whenever (host.failureJournalDir ≠ [])
    (orDie host (host.failureJournalDir.head? = some 47 && host.failureJournalDir ≠ text "/")
      (text "AURADE_FAILURE_JOURNAL_DIR must be an absolute non-root path"))
  fileChecks host o
  pure
    { opts := o
      filesystem := fs.val
      swap := swap.val
      staging := staging.val
      layout := layout.val
      filesystem_word := fs.property
      swap_word := swap.property
      staging_word := staging.property
      layout_word := layout.property }

theorem validate_eq (o : Options) :
    validate host o = (do
      orDie host (o.target ≠ []) (text "--target is required")
      orDie host ((text "/dev/").isPrefixOf o.target) (text "--target must be an absolute /dev path")
      let target ← canonicalDevice host o.target
      validateFrom host o target) := rfl

end Aurade.Installer

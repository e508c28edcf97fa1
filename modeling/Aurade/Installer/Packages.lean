import Aurade.Installer.Options

/-!
# The engine before the disk is touched

What `aurade-install` does up to its `confirm` stage: the packages it will install, the checks a
destructive run has to pass (`executeChecks`), the private work directory, and the packages planned
and downloaded into it.
-/

namespace Aurade.Installer

variable (host : Host)

/-! ## What will be installed -/

/-- `BASE_PACKAGES`. -/
def basePackages : List Bytes :=
  ["base", "archlinux-keyring", "linux", "linux-firmware", "linux-firmware-marvell",
    "wireless-regdb", "intel-ucode", "amd-ucode", "sof-firmware", "btrfs-progs", "seatd",
    "dosfstools", "cryptsetup", "gptfdisk", "efibootmgr", "sbsigntools", "networkmanager", "sudo",
    "pipewire", "pipewire-alsa", "pipewire-pulse", "wireplumber", "alsa-utils", "upower",
    "brightnessctl", "udisks2", "xdg-utils", "polkit", "openssh", "bluez", "bluez-utils",
    "vim"].map text

/-- What the bundle, the machine and the options add up to. -/
structure Packages where
  /-- `BASE_PACKAGES` in the end. -/
  base : List Bytes
  /-- `PACKAGE_FILES`, as the target sees them. -/
  files : List Bytes
  /-- `LOCKED_NAMES`. -/
  locked : List Bytes
  /-- `HW_SERVICES`. -/
  services : List Bytes

/-- The packages the options ask for. -/
def optionPackages (s : Settings) : List Bytes :=
  (match s.filesystem with
    | .btrfs => []
    | .ext4 => [text "e2fsprogs"]
    | .xfs => [text "xfsprogs"]) ++
  (if s.swap = .zram then [text "zram-generator"] else []) ++
  (if s.opts.screenReader = text "yes" then [text "espeakup"] else []) ++
  (if s.opts.braille = text "yes" then [text "brltty"] else []) ++
  (if s.opts.typeface = text "atkinson" then [text "ttf-atkinson-hyperlegible"]
    else if s.opts.typeface = text "opendyslexic" then [text "otf-opendyslexic-nerd"] else [])

/-- The lock, the key and the packages of the bundle, then what the machine needs. -/
def choosePackages (s : Settings) : Engine Packages := do
  let bundle ← look host (.query (.bundle s.opts.packageLock s.opts.bundleDir (!s.opts.allowUnsigned)))
  orDie host bundle.ok bundle.line
  let locked := bundle.lines.map fun line => (fields line).getD 2 []
  orDie host (locked.contains (text "aurade")) (text "package lock must include aurade")
  orDie host (locked.contains (text "chromiumos-ash")) (text "package lock must include chromiumos-ash")
  let needed ← listing host (.dependencies s.opts.packageLock s.opts.bundleDir)
  let auto := s.opts.hardwareSupport = text "auto"
  let hardware ← (if auto then listing host .hardware else pure [])
  let services ← (if auto then listing host .hardwareServices else pure [])
  let apps := (appList s.opts.apps).flatMap fun a =>
    (appPackages.filter fun e => text e.1 = a).flatMap fun e => e.2.map text
  pure
    { base := basePackages ++ needed ++ optionPackages s ++ hardware ++ apps
      files := bundle.lines.map fun line =>
        text "/var/cache/aurade/repo/" ++ (fields line).getD 1 []
      locked := locked
      services := services }

/-- A tool that has to be there. -/
def requireProgram (name : Bytes) : Engine Unit := do
  let there ← asks host (.program name)
  orDie host there (text "required command not found: " ++ name)

/-- `require_shape_tools`. -/
def requireShapeTools (s : Settings) : Engine Unit := do
  whenever (s.filesystem = .ext4) (requireProgram host (text "mkfs.ext4"))
  whenever (s.filesystem = .xfs) (requireProgram host (text "mkfs.xfs"))
  whenever (s.swap = .file) do
    requireProgram host (text "mkswap")
    whenever (s.filesystem = .btrfs) do
      requireProgram host (text "btrfs")
      let able ← asks host .mkswapfileHelp
      orDie host able (text "required btrfs-progs does not support filesystem mkswapfile")
    whenever (s.filesystem = .ext4) (requireProgram host (text "fallocate"))

/-! ## The checks before a destructive run -/

/-- `ESP_TYPE_GUID`. -/
def espTypeGuid : Bytes := text "C12A7328-F81F-11D2-BA4B-00A0C93EC93B"

/-- `${WORD^^}` on ASCII letters. -/
def upper (w : Bytes) : Bytes := w.map fun b => if isLower b then b - 32 else b

/-- The device `existing_esp` finds in the list of partition types: the first with the type. -/
def espOf (lines : List Bytes) : Option Bytes :=
  ((lines.map readPair).find? fun p => decide (upper p.2 = espTypeGuid)).map Prod.fst

/-- The types of the devices that rest on others, as the `case` of the engine lists them:
`crypt|dm|lvm|md|md[0-9]*|mpath`. -/
def isStackedType (type : Bytes) : Bool :=
  oneOf ["crypt", "dm", "lvm", "md", "mpath"] type ||
    ((text "md").isPrefixOf type && (type.drop 2).head?.any isDigit)

/-- The digits of a text, as `tr -dc 0-9` leaves them. -/
def digits (w : Bytes) : Bytes := w.filter isDigit

/-- `largest_free_bytes`. -/
def largestFreeBytes (disk : Bytes) : Engine ℕ := do
  let first ← look host (.query (.firstInLargest disk))
  let last ← look host (.query (.endOfLargest disk))
  let sector ← look host (.query (.sectorSize disk))
  if digits first.line = [] ∨ digits last.line = [] ∨ !allOf isDigit sector.line then pure 0
  else
    let first := parseDecimal (digits first.line)
    let last := parseDecimal (digits last.line)
    pure (if first ≤ last then (last - first + 1) * parseDecimal sector.line else 0)

/-- That no device of the tree below the target is mounted, a device of a mapped kind, or swap. -/
def inUseChecks (target : Bytes) : Engine Unit := do
  let source ← answer host .rootSource
  let under ← look host (.query (.lsblk .restsOn source))
  orDie host (!(under.ok && under.lines.contains target))
    (text "target contains the running root filesystem")
  let mounted ← listing host (.lsblk .mounts target)
  forEach mounted fun line =>
    orDie host ((fields line).getD 1 [] = [])
      (text "target or a child partition is mounted: " ++ (fields line).headD [] ++ text " -> " ++
        (fields line).getD 1 [])
  let below ← listing host (.lsblk .types target)
  forEach below fun line =>
    orDie host (!isStackedType (readPair line).2)
      (text "target has an active device-mapper/RAID relationship: " ++ (readPair line).1 ++
        text " (" ++ (readPair line).2 ++ text ")")
  let swaps ← look host (.query .swaps)
  forEach swaps.lines fun line => do
    let device := readOne line
    whenever (device ≠ []) do
      let under ← (if device = target then pure { lines := [target] }
        else look host (.query (.lsblk .restsOn device)))
      orDie host (!(under.ok && under.lines.contains target))
        (text "target or a child partition is active swap: " ++ device)

/-- What the checks find out for later. -/
structure Checked where
  /-- `ALONGSIDE_ESP`. -/
  esp : Bytes := []
  /-- `SECURE_BOOT_SIGN`. -/
  sign : Bool := false
  /-- `SECURE_BOOT_SETUP_MODE`. -/
  setupMode : Bool := false

/-- The room on the disk, and the EFI system partition that an install alongside reuses. -/
def roomChecks (s : Settings) : Engine Bytes := do
  let size ← answer host (.size s.target)
  match s.layout with
  | .alongside => do
    let types ← listing host (.lsblk .partTypes s.target)
    match espOf types with
    | none => die host (text "this disk has no EFI system partition, so AuraDE cannot be added alongside what is already on it")
    | some esp => do
      let free ← largestFreeBytes host s.target
      orDie host (host.minDiskBytes ≤ free)
        (text "the largest unallocated region on the target is too small for --layout alongside. It never resizes an existing partition to make room.")
      pure esp
  | .wipe => do
    orDie host (host.minDiskBytes ≤ parseDecimal size) (text "target is too small (need at least 16 GiB)")
    pure []

/-- The programs a destructive run needs. -/
def requiredPrograms : List String :=
  ["blockdev", "sgdisk", "wipefs", "partprobe", "udevadm", "mkfs.fat", "mkfs.btrfs", "mount",
    "umount", "btrfs", "pacman", "pacstrap", "pacman-key", "repo-add", "arch-chroot", "genfstab",
    "bootctl", "blkid", "timeout", "tee", "curl", "gpg", "gpgv"]

/-- The Secure Boot state, and whether this run signs what it installs. -/
def secureBootState (s : Settings) : Engine Checked := do
  let state ← look host (.query .secureBoot)
  let known := oneOf ["enabled", "disabled"] state.line
  let firmware ← (if known then pure {} else look host (.query (.efiBoolean (text "SecureBoot"))))
  let enabled := if known then state.line = text "enabled" else firmware.line = text "1"
  let disabled := if known then state.line = text "disabled" else firmware.line = text "0"
  let keyed := s.opts.secureBootKeyFile ≠ []
  if enabled then
    let setup ← look host (.query (.efiBoolean (text "SetupMode")))
    if setup.line = text "1" then pure { sign := true, setupMode := true }
    else pure { sign := keyed }
  else if disabled then pure { sign := keyed }
  else pure { sign := keyed }

/-- Everything that has to hold before the first destructive command of a run with `--execute`. -/
def executeChecks (s : Settings) : Engine Checked := do
  let user ← answer host .user
  orDie host (user = text "0") (text "--execute requires root")
  orDie host (s.opts.confirm = s.eraseToken)
    (text "refusing write: --confirm must exactly equal " ++ s.eraseToken)
  let efi ← asks host (.test .directory (text "/sys/firmware/efi"))
  orDie host efi (text "AuraDE requires booting the installer in UEFI mode")
  let block ← asks host (.test .blockDevice s.target)
  orDie host block (text "target is not a block device: " ++ s.target)
  let type ← answer host (.lsblk .wholeType s.target)
  orDie host (type ≠ text "loop" || s.opts.allowLoop) (text "loop targets require --allow-loop")
  orDie host (oneOf ["disk", "loop"] type)
    (text "target must be a whole disk or explicitly allowed loop device")
  inUseChecks host s.target
  let esp ← roomChecks host s
  forEach requiredPrograms fun name => requireProgram host (text name)
  requireShapeTools host s
  whenever s.luks (requireProgram host (text "cryptsetup"))
  let boot ← secureBootState host s
  whenever boot.sign do
    forEach [text "sbsign", text "sbverify"] fun name => do
      let there ← asks host (.program name)
      orDie host there (text "required command not found for Secure Boot signing: " ++ name)
    whenever boot.setupMode do
      let able ← asks host .autoEnroll
      orDie host able (text "this image is too old to enroll Secure Boot keys automatically")
  pure { boot with esp := esp }

/-! ## The work directory -/

/-- The engine's private files. -/
structure Work where
  /-- `WORK_DIR`. -/
  dir : Bytes
  /-- `WORKSPACE_FS_PATH`. -/
  fsPath : Bytes
  /-- `SECURE_BOOT_KEY_FILE`. -/
  key : Bytes
  /-- `SECURE_BOOT_CERT_FILE`. -/
  cert : Bytes

namespace Work

variable (w : Work)

/-- `ARCH_PACMAN_CONF`. -/
def pacmanConf : Bytes := w.dir ++ text "/pacman.conf"

/-- `ARCH_LOCAL_PACMAN_CONF`. -/
def localConf : Bytes := w.dir ++ text "/local-pacman.conf"

/-- `ARCH_CACHE`, before it moves to the target. -/
def cache : Bytes := w.dir ++ text "/arch-cache"

/-- `ARCH_GPG_DIR`. -/
def gpgDir : Bytes := w.dir ++ text "/gnupg"

/-- `ARCH_DB_PATH`. -/
def db : Bytes := w.dir ++ text "/pacman-db"

end Work

/-- The directory asked for, where it can be used. -/
def workParent : Engine (Option Bytes) := do
  let parent := host.installWorkDir
  let there ← asks host (.test .present parent)
  if there then
    let dir ← asks host (.test .directory parent)
    let writable ← andAsks host dir (.test .writable parent)
    let usable ← andAsks host writable (.test .executable parent)
    pure (if usable then some parent else none)
  else
    let made ← look host (.command (.installDir 0o700 [parent]))
    pure (if made.ok then some parent else none)

/-- `WORK_DIR` and `WORKSPACE_FS_PATH`: under the directory asked for, else under `/tmp`. -/
def makeWorkDir : Engine (Bytes × Bytes) := do
  orDie host (host.installWorkDir.head? = some 47 && host.installWorkDir ≠ text "/")
    (text "AURADE_INSTALL_WORK_DIR must be an absolute non-root path")
  let parent ← workParent host
  let made ← (match parent with
    | some parent => look host (.command (.mktemp (parent ++ text "/aurade-install.XXXXXX")))
    | none => pure { ok := false })
  if made.ok then
    Act.assign fun v => { v with workDir := some made.line }
    pure (made.line, host.installWorkDir)
  else
    let dir ← asks host (.test .directory (text "/tmp"))
    let writable ← andAsks host dir (.test .writable (text "/tmp"))
    let usable ← andAsks host writable (.test .executable (text "/tmp"))
    orDie host usable
      (text "neither the configured installer work directory nor /tmp is writable")
    let made ← must host (.command (.mktemp (text "/tmp/aurade-install.XXXXXX")))
    Act.assign fun v => { v with workDir := some made.line }
    pure (made.line, text "/tmp")

/-- `secure_boot_generate_material`. -/
def secureBootGenerateMaterial (dir : Bytes) : Engine (Bytes × Bytes) := do
  let openssl ← asks host (.program (text "openssl"))
  orDie host openssl (text "openssl is required to generate Secure Boot keys")
  let key := dir ++ text "/secure-boot-private-key.pem"
  let cert := dir ++ text "/secure-boot-certificate.pem"
  let made ← look host (.command (.makeKey key cert))
  orDie host made.ok (text "could not generate the temporary AuraDE Secure Boot key")
  exec host (.chmod (text "0600") key)
  exec host (.chmod (text "0600") cert)
  pure (key, cert)

/-- `write_arch_pacman_conf`, for packages kept in `cache`. -/
def writeArchPacmanConf (s : Settings) (w : Work) (cache : Bytes) : Engine Unit :=
  exec host (.write (text "DBPath = " ++ w.db ++ text "\nCacheDir = " ++ cache ++ text "\nGPGDir = " ++
    w.gpgDir ++ text "\nServer = https://archive.archlinux.org/repos/" ++ s.opts.archSnapshot)
    w.pacmanConf)

/-- `write_arch_local_pacman_conf`, for packages kept in `cache`. -/
def writeArchLocalPacmanConf (w : Work) (cache : Bytes) : Engine Unit :=
  exec host (.write (text "GPGDir = " ++ w.gpgDir ++ text "\nServer = file://" ++ cache) w.localConf)

/-- The work directory with all that is put into it at once. -/
def prepareWork (s : Settings) (c : Checked) : Engine Work := do
  let made ← makeWorkDir host
  exec host (.chmod (text "700") made.1)
  let room ← look host (.query (.capacity made.2))
  orDie host room.ok (text "cannot determine free space on installer staging filesystem: " ++ made.2)
  orDie host (host.minWorkspaceBytes ≤ parseDecimal room.line)
    (text "installer staging capacity is too small to check package availability before changing the disk. Set AURADE_INSTALL_WORK_DIR to a disk with more free space.")
  let given := (s.opts.secureBootKeyFile, s.opts.secureBootCertFile)
  let keys ← (if c.sign && s.opts.secureBootKeyFile = [] then secureBootGenerateMaterial host made.1
    else pure given)
  whenever (c.sign && s.opts.secureBootKeyFile ≠ []) (secureBootValidateMaterial host given.1 given.2)
  let w : Work := ⟨made.1, made.2, keys.1, keys.2⟩
  exec host (.installDir 0o755 [w.cache, w.db])
  writeArchPacmanConf host s w w.cache
  pure w

/-! ## The packages -/

/-- `die_keyring_failure`. -/
def dieKeyringFailure {α : Type} : Engine α :=
  die host (text "the package signing keyring could not be set up. The most common reason is a wrong date on this computer")

/-- `ARCH_KEYRING_FILES`. -/
def keyringFiles : List Bytes :=
  ["pubring.gpg", "trustdb.gpg", "gpg.conf", "dirmngr.conf", "dirmngr_ldapserver.conf"].map text

/-- `copy_public_keyring`. -/
def copyPublicKeyring (source destination : Bytes) : Engine Unit := do
  exec host (.installDir 0o700 [destination])
  forEach keyringFiles fun file => do
    let there ← asks host (.test .readable (source ++ text "/" ++ file))
    whenever there (exec host (.copy (source ++ text "/" ++ file) (destination ++ text "/" ++ file)))
  exec host (.chmod (text "-R u+rwX,go-rwx") destination)

/-- `prepare_arch_keyring`. -/
def prepareArchKeyring (w : Work) : Engine Unit := do
  let there ← asks host (.program (text "pacman-key"))
  orDie host there (text "pacman-key is required to initialize the writable Arch keyring")
  let there ← asks host (.program (text "gpg"))
  orDie host there (text "gpg is required to initialize the writable Arch keyring")
  copyPublicKeyring host (text "/etc/pacman.d/gnupg") w.gpgDir
  let ring ← asks host (.test .nonempty (w.gpgDir ++ text "/pubring.gpg"))
  let trust ← andAsks host ring (.test .nonempty (w.gpgDir ++ text "/trustdb.gpg"))
  whenever (!trust) do
    let made ← look host (.command (.pacmanKey w.gpgDir false))
    whenever (!made.ok) (dieKeyringFailure host)
  let there ← asks host (.test .readable (text "/usr/share/pacman/keyrings/archlinux.gpg"))
  orDie host there (text "this image is missing the Arch signing keyring")
  let made ← look host (.command (.pacmanKey w.gpgDir true))
  whenever (!made.ok) (dieKeyringFailure host)
  let ring ← asks host (.test .readable (w.gpgDir ++ text "/pubring.gpg"))
  let trust ← andAsks host ring (.test .readable (w.gpgDir ++ text "/trustdb.gpg"))
  let writable ← andAsks host trust (.test .writable w.gpgDir)
  whenever (!writable) (dieKeyringFailure host)

/-- The size of the package list and its first address, or `none` where a line is unreadable. -/
def readPackageList : List Bytes → Option (ℕ × Bytes)
  | [] => some (0, [])
  | line :: rest =>
    match fields line with
    | [] => readPackageList rest
    | [size, url] =>
      if allOf isDigit size then
        (readPackageList rest).map fun r => (parseDecimal size + r.1, url)
      else none
    | _ => none

/-- `plan_arch_package_set`: the size of the packages. -/
def planArchPackageSet (w : Work) (packages : List Bytes) : Engine ℕ := do
  let there ← asks host (.program (text "pacman"))
  orDie host there (text "pacman is required to install Arch packages")
  let there ← asks host (.program (text "timeout"))
  orDie host there (text "timeout is required to check the pinned package list")
  -- three attempts; `none` goes on to the next
  let planned ← Act.each none (fun attempt => do
    exec host (.write [] (w.dir ++ text "/arch-plan-" ++ decimal attempt ++ text ".log"))
    let refreshed ← look host (.command (.refresh w.pacmanConf w.cache w.db))
    if refreshed.ok then
      let plan ← look host (.query (.packageList w.pacmanConf packages))
      if plan.ok then
        match readPackageList plan.lines with
        | none => die host (text "the pinned package archive returned an unreadable package list")
        | some r => do
          orDie host (r.1 ≤ 9223372036854775807) (text "the pinned package list is too large to stage safely")
          orDie host (0 < r.1) (text "the pinned package list is empty")
          pure (some r)
      else pure none
    else pure none) [1, 2, 3]
  match planned with
  | none => die host (text "the pinned package archive could not be reached before changing the disk")
  | some r => do
    requireProgram host (text "curl")
    let answered ← asks host (.probe r.2)
    orDie host answered (text "the pinned package archive did not answer before the disk was changed")
    pure r.1

/-- `aurade_select_package_staging`: where the packages will be kept, or `none` where they do not
fit. -/
def selectPackageStaging (requested : Staging) (bytes : ℕ) (path : Bytes) :
    Engine (Option Staging) := do
  match requested with
  | .target => pure (some .target)
  | _ => do
    let available ← look host (.query (.capacity path))
    if available.ok then
      let enough := bytes + host.stagingReserveBytes ≤ parseDecimal available.line
      pure (if enough then some .workspace else if requested = .auto then some .target else none)
    else pure none

/-- `acquire_arch_packages`: where the packages will be kept. -/
def acquireArchPackages (s : Settings) (p : Packages) (w : Work) : Engine Staging := do
  match s.mode with
  | .dryRun => do
    writeArchLocalPacmanConf host w w.cache
    pure s.staging
  | .execute => do
    let there ← asks host (.program (text "repo-add"))
    orDie host there (text "repo-add is required to prepare the offline Arch package set")
    let there ← asks host (.program (text "timeout"))
    orDie host there (text "timeout is required to bound Arch package planning")
    exec host (.installDir 0o755 [w.cache, w.db])
    let bytes ← planArchPackageSet host w p.base
    let selected ← selectPackageStaging host s.staging bytes w.fsPath
    match selected with
    | none => die host (text "installer staging capacity is too small for the pinned package set. Set AURADE_INSTALL_WORK_DIR to a disk with more free space.")
    | some staging => pure staging

/-- Whether every package has a good signature. All of them are looked at. -/
def signaturesGood (ring : Bytes) : List Bytes → Engine Bool
  | [] => pure true
  | package :: rest => do
    let there ← asks host (.test .readable (package ++ text ".sig"))
    let good ← andAsks host there (.signature ring package)
    let others ← signaturesGood ring rest
    pure (good && others)

/-- `verify_arch_package_signatures`. -/
def verifyArchPackageSignatures (w : Work) (packages : List Bytes) : Engine Bool := do
  let ring := w.gpgDir ++ text "/pubring.gpg"
  let there ← asks host (.test .readable ring)
  if there then signaturesGood host ring packages else pure false

/-- How a download ended. -/
inductive Downloaded
  | packages (files : List Bytes)
  /-- Not within the attempts allowed; whether signatures were wrong. -/
  | gaveUp (signatures : Bool)

/-- The attempts of `download_arch_packages`, at most `n` more of them. -/
def downloadAttempts (stage : Stage) (w : Work) (cache : Bytes) (packages : List Bytes) :
    ℕ → ℕ → ℕ → Bool → Engine Downloaded
  | 0, _, _, bad => pure (.gaveUp bad)
  | n + 1, attempt, failures, bad =>
    if 3 ≤ failures then pure (.gaveUp bad)
    else do
      exec host (.remove [w.db ++ text "/db.lck"])
      let before ← look host (.query (.used cache))
      exec host (.write [] (w.dir ++ text "/arch-acquire-" ++ decimal attempt ++ text ".log"))
      let got ← look host (.command (.download w.pacmanConf cache packages))
      forEach got.lines fun line => journalProgress host stage (parseDecimal (digits line)) line
      if got.ok then
        let files ← listing host (.packages cache)
        orDie host (files ≠ []) (text "Arch package acquisition produced no package files")
        let good ← verifyArchPackageSignatures host w files
        if good then pure (.packages files)
        else do
          let keyring ← asks host .keyringFailure
          whenever keyring (dieKeyringFailure host)
          exec host (.remove [cache ++ text "/*"])
          downloadAttempts stage w cache packages n (attempt + 1) (failures + 1) true
      else do
        let keyring ← asks host .keyringFailure
        whenever keyring (dieKeyringFailure host)
        let after ← look host (.query (.used cache))
        let grew := allOf isDigit before.line && allOf isDigit after.line &&
          parseDecimal before.line < parseDecimal after.line
        downloadAttempts stage w cache packages n (attempt + 1) (if grew then failures else failures + 1) bad

/-- `download_arch_packages`. -/
def downloadArchPackages (p : Packages) (w : Work) (cache : Bytes) (changedDisk : Bool) :
    Engine (List Bytes) := do
  let stage := if changedDisk then Stage.acquireTarget else Stage.acquire
  let there ← asks host (.program (text "repo-add"))
  orDie host there (text "repo-add is required to prepare the offline Arch package set")
  let there ← asks host (.program (text "timeout"))
  orDie host there (text "timeout is required to bound Arch package acquisition")
  exec host (.installDir 0o755 [cache])
  let sampler ← andAsks host (host.ratePath ≠ []) (.test .executable host.rateSampler)
  whenever sampler do
    discard (look host (.command (.startSampler host.ratePath)))
    Act.assign fun v => { v with sampling := true }
  let got ← downloadAttempts host stage w cache p.base host.acquireMaxAttempts 1 0 false
  let v ← Act.vars
  whenever v.sampling (discard (look host (.command .stopHelpers)))
  Act.assign fun v => { v with sampling := false }
  match got with
  | .gaveUp signatures =>
    if signatures then
      if changedDisk then
        die host (text "the downloaded packages did not match their signatures after the disk was changed")
      else die host (text "the downloaded packages did not match their signatures before the disk was changed")
    else if changedDisk then
      die host (text "the packages could not all be downloaded from the archive after the disk was changed")
    else die host (text "the packages could not all be downloaded from the archive before changing the disk")
  | .packages files => do
    let added ← look host (.command (.repoAdd (cache ++ text "/aurade-arch.db.tar.gz") files))
    orDie host added.ok (text "could not build the local Arch package repository")
    writeArchLocalPacmanConf host w cache
    pure files

end Aurade.Installer

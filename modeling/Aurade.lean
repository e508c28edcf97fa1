import Aurade.Ops.NoOverwrite
import Aurade.Ops.Move
import Aurade.Ops.Faithful
import Aurade.Ops.Flatten
import Aurade.Stores.Torn
import Aurade.Foundations.Json
import Aurade.Foundations.Text
import Aurade.Stores.File
import Aurade.Stores.LostUpdate
import Aurade.Stores.Reconcile
import Aurade.Stores.Unreadable
import Aurade.Foundations.History
import Aurade.Installer.Commands
import Aurade.Installer.Journal
import Aurade.Installer.Options
import Aurade.Installer.Packages
import Aurade.Installer.Engine
import Aurade.Installer.Tame
import Aurade.Installer.Alongside
import Aurade.Installer.Consent
import Aurade.Foundations.Cursor
import Aurade.Ops.Volume
import Aurade.Foundations.Percent
import Aurade.Stores.Url
import Aurade.Foundations.Chars
import Aurade.Desktop.Mime
import Aurade.Stores.Defaults
import Aurade.Foundations.Replace
import Aurade.Desktop.Exec
import Aurade.Desktop.Pin
import Aurade.Ops.Search
import Aurade.Daemon.Http
import Aurade.Fs.Live
import Aurade.Greeter.Protocol
import Aurade.Greeter.Greetd
import Aurade.Foundations.Compare
import Aurade.Greeter.Alerts
import Aurade.Vm.Plan
import Aurade.Bridge.Storage
import Aurade.Foundations.Dict
import Aurade.Network.Monitor
import Aurade.Network.Scan
import Aurade.Network.Services
import Aurade.Foundations.FlatJson
import Aurade.Foundations.FieldSearch
import Aurade.Installer.Stream
import Aurade.Installer.Readers
import Aurade.Foundations.Arrange
import Aurade.Stores.Bookmarks
import Aurade.Ops.Grouping
import Aurade.Ops.Query
import Aurade.Vm.Answers
import Aurade.Installer.Requests
import Aurade.Vm.Release
import Aurade.Vm.Tidy
import Aurade.Vm.Fetch
import Aurade.Files.Paste
import Aurade.Files.Navigation
import Aurade.Ops.Compress
import Aurade.Ops.Cleanup
import Aurade.Ops.Trash
import Aurade.Stores.Editing
import Aurade.Stores.Pins
import Aurade.Stores.Recent
import Aurade.Desktop.Handlers
import Aurade.Foundations.Decode
import Aurade.Ops.Rows
import Aurade.Ops.Hidden
import Aurade.Foundations.Walk
import Aurade.Ops.Recently
import Aurade.Media.Tiff
import Aurade.Media.Exif
import Aurade.Media.Orientation
import Aurade.Stores.Launch
import Aurade.Desktop.Gpg
import Aurade.Daemon.Jobs
import Aurade.Daemon.Preview
import Aurade.Foundations.Collect
import Aurade.Git.Rollup
import Aurade.Git.LastCommits
import Aurade.Files.Props
import Aurade.Files.Volumes
import Aurade.Network.Connect
import Aurade.Bridge.DiskUsage
import Aurade.Vm.Hypervisor
import Aurade.Vm.Update
import Aurade.Foundations.Calendar
import Aurade.Ops.Dates
import Aurade.Forecast.Days
import Aurade.Forecast.Outlook
import Aurade.Greeter.Accounts
import Aurade.Foundations.Keyfile
import Aurade.Installer.Wifi
import Aurade.Greeter.Settings
import Aurade.Forecast.Caches
import Aurade.Installer.Answers
import Aurade.Recovery.Entry
import Aurade.Recovery.Snapshot
import Aurade.Recovery.Bootable
import Aurade.Fs.Std
import Aurade.Fs.Confined
import Aurade.Ops.Extract
import Aurade.Ops.Extracted
import Aurade.Foundations.Crew
import Aurade.Ops.Trashing
import Aurade.Ops.TrashRuns
import Aurade.Ops.Parts
import Aurade.Ops.Reports

import RocGui.GraphAtomicity
import RocGui.KeyedListings
import RocGui.KeyedFallbacks
import RocGui.TaskCompletions
import RocGui.PatchReports
import RocGui.GrantRevocations
import RocGui.WithdrawnEntries
import RocGui.FragmentAcceptance
import RocGui.DelegatedTurns
import RocGui.PopoverRuns
import RocGui.LoweringRuns
import RocGui.AccessSurface
import RocGui.RecentSaves
import RocGui.RememberedGrants
import RocGui.AppDataRuns
import RocGui.ReopenedPlaces
import RocGui.CapabilityWaits
import RocGui.WatchRuns
import RocGui.LastReferences
import RocGui.TextInputs
import RocGui.TextRanges
import RocGui.TextSettlements
import RocGui.DatabaseOpens
import RocGui.CaptureEvents
import RocGui.FrameLinks
import RocGui.Captures
import RocGui.CaptureRuns
import RocGui.SpecReader
import RocGui.SpecCharacters
import RocGui.SpecGrammar
import RocGui.NodeForms
import RocGui.FocusSearches
import RocGui.FocusLandings
import RocGui.RuntimeIdentities
import RocGui.IdentityRuns
import RocGui.FocusPolicies
import RocGui.Retirements
import RocGui.FocusWithin
import RocGui.RelativePaths
import RocGui.Locators
import RocGui.LocatorPrints
import RocGui.LocatorMatches
import RocGui.ProcessReads
import RocGui.TaskResets
import RocGui.LiveResources
import RocGui.HttpOrigins
import RocGui.CanvasSettling
import RocGui.VirtualRowRuns
import RocGui.DigestSlots
import RocGui.ActionAdapters
import RocGui.EventRoutes
import RocGui.ViewportRows
import RocGui.ShortcutSearches
import RocGui.CanvasHits
import RocGui.ElementLifts
import RocGui.InteractionRuns
import RocGui.TaskTurns
import RocGui.NativeReplays
import RocGui.RetainedFrames
